import CrayTests.RdmOneSided

/-!
# The buffers of `rdm_one_sided`

`init_per_thread_data` rounds the addresses of `s_buf_original` and `r_buf_original` up to a multiple
of the page size and registers `MYBUFSIZE` bytes from there. The arrays have `MYBUFSIZE` bytes, which
leaves room for a message behind the rounded address but not for a region of that size.
-/

namespace CrayTests.RdmOneSided
open CInteger

def maxAlignment : ℕ := 65536

def maxMsgSize : ℕ := 2 ^ 22

def myBufSize : ℕ := maxMsgSize + maxAlignment

/-- A `per_thread_data` structure in memory: its address, and the bytes in front of
`s_buf_original`. -/
structure ThreadArea where
  base : ℕ
  before : ℕ
  fits : base + before + 2 * myBufSize ≤ 2 ^ 64

structure Region where
  start : ℕ
  len : ℕ

def Region.Within (inner outer : Region) : Prop :=
  outer.start ≤ inner.start ∧ inner.start + inner.len ≤ outer.start + outer.len

namespace ThreadArea

variable (a : ThreadArea)

def sBufOriginal : Region := ⟨a.base + a.before, myBufSize⟩

def rBufOriginal : Region := ⟨a.base + a.before + myBufSize, myBufSize⟩

end ThreadArea

def alignBuf (buf alignSize : ℕ) : ℕ :=
  uint64 ((uint64 ((buf : ℤ) + (alignSize - 1)) / alignSize * alignSize : ℕ))

/-- What `init_per_thread_data` leaves in `ptd`, with the regions it passes to `fi_mr_reg`. -/
structure ThreadBufs where
  sBuf : ℕ
  rBuf : ℕ
  registered : Mr → Region

/-- The initialisation of the buffers; the page size is asserted to be at most `MAX_ALIGNMENT`. -/
def initBufs (a : ThreadArea) (alignSize : ℕ) : Option ThreadBufs :=
  if alignSize ≤ maxAlignment then
    let sBuf := alignBuf a.sBufOriginal.start alignSize
    let rBuf := alignBuf a.rBufOriginal.start alignSize
    some
      { sBuf := sBuf
        rBuf := rBuf
        registered := fun
          | .rMr => ⟨rBuf, myBufSize⟩
          | .lMr => ⟨sBuf, myBufSize⟩ }
  else none

/-- A buffer at `buf` in the array it is cut from: it starts at a multiple of the page size, and the
accesses to a message stay in the array. -/
structure BufInside (alignSize buf : ℕ) (original : Region) : Prop where
  aligned : alignSize ∣ buf
  inside : original.start ≤ buf ∧ buf < original.start + original.len
  accesses : ∀ n ≤ maxMsgSize, Region.Within ⟨buf, n⟩ original

/-- Both buffers are inside their arrays, and so is what is registered for them. -/
structure MemoryInside (a : ThreadArea) (alignSize : ℕ) (bufs : ThreadBufs) : Prop where
  sBuf : BufInside alignSize bufs.sBuf a.sBufOriginal
  rBuf : BufInside alignSize bufs.rBuf a.rBufOriginal
  registered_s : (bufs.registered .lMr).Within a.sBufOriginal
  registered_r : (bufs.registered .rMr).Within a.rBufOriginal

variable {a : ThreadArea} {alignSize buf : ℕ} {bufs : ThreadBufs}

/-- Without a wrap the result is the first multiple of the page size from `buf` on. -/
theorem alignBuf_bounds (hpos : 1 ≤ alignSize) (hmax : alignSize ≤ maxAlignment)
    (hfits : buf + myBufSize ≤ 2 ^ 64) :
    alignSize ∣ alignBuf buf alignSize ∧ buf ≤ alignBuf buf alignSize ∧
      alignBuf buf alignSize < buf + alignSize := by
  have hsize : maxAlignment ≤ myBufSize := Nat.le_add_left _ _
  have hsum : (buf : ℤ) + (alignSize - 1) = (buf + (alignSize - 1) : ℕ) := by
    push_cast [hpos]
    ring
  have hmod := Nat.div_add_mod' (buf + (alignSize - 1)) alignSize
  have hlt := Nat.mod_lt (buf + (alignSize - 1)) hpos
  have hinner : uint64 ((buf : ℤ) + (alignSize - 1)) = buf + (alignSize - 1) := by
    rw [hsum]
    exact uint64_natCast (by omega)
  have heq : alignBuf buf alignSize = (buf + (alignSize - 1)) / alignSize * alignSize := by
    rw [alignBuf, hinner]
    exact uint64_natCast (by omega)
  rw [heq]
  exact ⟨Nat.dvd_mul_left _ _, by omega, by omega⟩

theorem alignBuf_eq_self_iff (hpos : 1 ≤ alignSize) (hmax : alignSize ≤ maxAlignment)
    (hfits : buf + myBufSize ≤ 2 ^ 64) : alignBuf buf alignSize = buf ↔ alignSize ∣ buf := by
  obtain ⟨hdvd, hle, hlt⟩ := alignBuf_bounds hpos hmax hfits
  constructor
  · intro h
    rwa [h] at hdvd
  · intro h
    -- two multiples closer than the page size
    have := Nat.eq_zero_of_dvd_of_lt (Nat.dvd_sub hdvd h) (by omega)
    omega

/-- `MAX_ALIGNMENT` bytes of an array are enough to round its start up. -/
theorem bufInside_alignBuf (hpos : 1 ≤ alignSize) (hmax : alignSize ≤ maxAlignment)
    (hfits : buf + myBufSize ≤ 2 ^ 64) :
    BufInside alignSize (alignBuf buf alignSize) ⟨buf, myBufSize⟩ := by
  obtain ⟨hdvd, hle, hlt⟩ := alignBuf_bounds hpos hmax hfits
  have hsize : myBufSize = maxMsgSize + maxAlignment := rfl
  refine ⟨hdvd, ⟨hle, ?_⟩, fun n hn => ⟨hle, ?_⟩⟩
  · change alignBuf buf alignSize < buf + myBufSize
    omega
  · change alignBuf buf alignSize + n ≤ buf + myBufSize
    omega

/-- A region of the size of the array fits only where nothing was rounded. -/
theorem within_alignBuf_iff (hpos : 1 ≤ alignSize) (hmax : alignSize ≤ maxAlignment)
    (hfits : buf + myBufSize ≤ 2 ^ 64) :
    Region.Within ⟨alignBuf buf alignSize, myBufSize⟩ ⟨buf, myBufSize⟩ ↔ alignSize ∣ buf := by
  rw [← alignBuf_eq_self_iff hpos hmax hfits]
  have hle := (alignBuf_bounds hpos hmax hfits).2.1
  unfold Region.Within
  dsimp only
  omega

theorem ThreadArea.sBuf_fits (a : ThreadArea) : a.sBufOriginal.start + myBufSize ≤ 2 ^ 64 := by
  have := a.fits
  change a.base + a.before + myBufSize ≤ 2 ^ 64
  omega

theorem ThreadArea.rBuf_fits (a : ThreadArea) : a.rBufOriginal.start + myBufSize ≤ 2 ^ 64 := by
  have := a.fits
  change a.base + a.before + myBufSize + myBufSize ≤ 2 ^ 64
  omega

/-- For every page size and every address of the structure, the memory that is registered lies
inside the arrays exactly when both arrays start at a multiple of the page size. -/
theorem memoryInside_iff (hpos : 1 ≤ alignSize) (hmax : alignSize ≤ maxAlignment) :
    (∃ bufs, initBufs a alignSize = some bufs ∧ MemoryInside a alignSize bufs) ↔
      alignSize ∣ a.sBufOriginal.start ∧ alignSize ∣ a.rBufOriginal.start := by
  have hs := within_alignBuf_iff hpos hmax a.sBuf_fits
  have hr := within_alignBuf_iff hpos hmax a.rBuf_fits
  rw [initBufs, if_pos hmax]
  constructor
  · rintro ⟨bufs, hbufs, h⟩
    obtain rfl := Option.some.inj hbufs
    exact ⟨hs.mp h.registered_s, hr.mp h.registered_r⟩
  · rintro ⟨hsdvd, hrdvd⟩
    exact ⟨_, rfl,
      { sBuf := bufInside_alignBuf hpos hmax a.sBuf_fits
        rBuf := bufInside_alignBuf hpos hmax a.rBuf_fits
        registered_s := hs.mpr hsdvd
        registered_r := hr.mpr hrdvd }⟩

/-- The first structure of a block of `calloc`, 16 bytes behind the start of a page. -/
def callocArea : ThreadArea where
  base := 2 ^ 32 + 16
  before := 160
  fits := by decide

theorem memoryInside_iff_calloc :
    (∃ bufs, initBufs callocArea 4096 = some bufs ∧ MemoryInside callocArea 4096 bufs) ↔
      4096 ∣ callocArea.sBufOriginal.start ∧ 4096 ∣ callocArea.rBufOriginal.start :=
  memoryInside_iff (by decide) (by decide)

/-- With pages of 4096 bytes the regions end 3920 bytes behind the arrays. -/
theorem not_memoryInside_calloc :
    ¬ ∃ bufs, initBufs callocArea 4096 = some bufs ∧ MemoryInside callocArea 4096 bufs := by
  rintro ⟨bufs, hbufs, h⟩
  obtain rfl := Option.some.inj hbufs
  exact absurd h.registered_r.2 (by decide)

end CrayTests.RdmOneSided
