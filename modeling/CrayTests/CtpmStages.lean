import CrayTests.CtpmCollectives

/-!
# The code runs through the stages of the rounds

Every round of an abstract run becomes a few stages of the key-value space: the first
`ctpm_Allgather` gathers the ranks before it gathers the blocks, every other operation is one
barrier or one call. Along the payload of these stages the linked program of a rank performs their
events and computes what the program computes.
-/

namespace CrayTests.Ctpm
open CInteger RankProgram CommittedStore Scatter
open Kvs

variable {n : ℕ} {α S : Type} {r : Fin n} {P : ℕ → ℕ → List Byte}

/-- What the payload `P` says about the calls of the stages `stages` after the stages `pre`. -/
def Carries (P : ℕ → ℕ → List Byte) (pre stages : List (Stage n)) : Prop :=
  ∀ a c d b, stages = a ++ .call c d :: b → ∀ q : Fin n, P q (callsOf (pre ++ a)).length = d q

theorem carries_payload (pre stages post : List (Stage n)) :
    Carries (payload (pre ++ stages ++ post)) pre stages := by
  rintro a c d b rfl q
  have := payload_eq (pre ++ a) (b ++ post) c d q
  simpa [List.append_assoc] using this

theorem Carries.head {pre stages : List (Stage n)} {c : Call} {d : Fin n → List Byte}
    (h : Carries P pre (.call c d :: stages)) (q : Fin n) : P q (callsOf pre).length = d q := by
  have := h [] c d stages rfl q
  rwa [List.append_nil] at this

theorem Carries.tail {pre stages : List (Stage n)} {s : Stage n}
    (h : Carries P pre (s :: stages)) : Carries P (pre ++ [s]) stages := by
  intro a c d b hsplit q
  have := h (s :: a) c d b (by rw [hsplit, List.cons_append]) q
  rwa [List.append_assoc, List.singleton_append]

theorem Carries.of_isPrefix {all pre stages : List (Stage n)} (h : pre ++ stages <+: all) :
    Carries (payload all) pre stages := by
  obtain ⟨post, rfl⟩ := h
  exact carries_payload pre stages post

section Move

variable {κ : Type} (f : List (Stage n) → κ → List (Stage n))

/-- The stages after one more upper call. -/
def move (pre : List (Stage n)) (c : κ) : List (Stage n) := pre ++ f pre c

theorem prefix_foldl_move (pre : List (Stage n)) (calls : List κ) :
    pre <+: calls.foldl (move f) pre := by
  induction calls generalizing pre with
  | nil => exact List.prefix_refl _
  | cons c calls ih => exact (List.prefix_append _ _).trans (ih (move f pre c))

theorem stagesEvents_foldl_move (pre : List (Stage n)) (calls : List κ) :
    stagesEvents P r [] (calls.foldl (move f) pre) = stagesEvents P r [] pre ++
      eventsAlong (move f) (fun pre c => stagesEvents P r pre (f pre c)) pre calls := by
  induction calls generalizing pre with
  | nil => exact (List.append_nil _).symm
  | cons c calls ih =>
    rw [List.foldl_cons, ih, eventsAlong, move, stagesEvents_append, List.nil_append,
      List.append_assoc]

end Move

/-- The static variables after the stages `pre`, with those of `allgather` given. -/
def staticOf (gather : Allgather.Static) (pre : List (Stage n)) : Static where
  calls := (callsOf pre).length
  allgCnt := counter (callsOf pre) (.allgather 0)
  bcstCnt := counter (callsOf pre) (.bcast 0)
  gather := gather

def gathered (pre : List (Stage n)) : Bool := (callsOf pre).any Call.isAllgather

def gatherAfter (pre : List (Stage n)) : Allgather.Static :=
  if gathered pre then Allgather.learned (Equiv.refl (Fin n)) else {}

abbrev staticAfter (pre : List (Stage n)) : Static := staticOf (gatherAfter pre) pre

/-- Calls of `PMI_Allgather`, each with its length and the blocks of the ranks. -/
abbrev Gathers (n : ℕ) := List (ℕ × (Fin n → List Byte))

def gatherStage (c : ℕ × (Fin n → List Byte)) : Stage n := .call (.allgather c.1) c.2

/-- The calls in one `ctpm_Allgather`: the first one gathers the ranks before the blocks. -/
def gathers (pre : List (Stage n)) (len : ℕ) (src : Fin n → List Byte) : Gathers n :=
  (if gathered pre then [] else [(4, fun q : Fin n => Allgather.intBytes (q : ℕ))]) ++ [(len, src)]

def roundStages (mem : Fin n → Contents) (pre : List (Stage n)) : Round n → List (Stage n)
  | .barrier => [.barrier]
  | .allgather len src _ => (gathers pre len src).map gatherStage
  | .bcast buffer => [.call (.bcast buffer.length) fun q => if (q : ℕ) = 0 then buffer else
      region ((mem q).caller (callsOf pre).length) 0 buffer.length]

theorem length_region (cells : ℤ → Byte) (start : ℤ) (len : ℕ) :
    (region cells start len).length = len := by simp [region]

section Calls

variable {pre : List (Stage n)} {g : Allgather.Static} {len : ℕ} {d : Fin n → List Byte}
  (hroom : (callsOf pre).length + 1 < 2 ^ 31)

include hroom

theorem counter_succ (c : Call) :
    counter (callsOf pre) c < 2 ^ 31 ∧
      int32 (counter (callsOf pre) c + 1) = counter (callsOf pre ++ [c]) c := by
  have hlen : (callsOf pre ++ c :: []).length < 2 ^ 31 := by simpa using hroom
  exact ⟨counter_lt hlen, int32_counter_succ hlen⟩

variable (mem : Contents) (hn : n < 2 ^ 31) (hP : ∀ q : Fin n, P q (callsOf pre).length = d q)
  (hd : ∀ q, (d q).length = len) (hlen : len < 2 ^ 30)

include hn hP hd hlen

theorem runs_gatherBlocks :
    Runs (expected n P) r (epochAfter pre) (gatherBlocks mem r (d r) (staticOf g pre))
      (stageEvents P r pre (.call (.allgather len) d))
      (d, staticOf g (pre ++ [.call (.allgather len) d]))
      (epochAfter (pre ++ [.call (.allgather len) d])) := by
  obtain ⟨hcnt, hnext⟩ := counter_succ hroom (.allgather len)
  have hdata : ∀ i < n, (P i (callsOf pre).length).length = len := fun i hi =>
    (congrArg _ (hP ⟨i, hi⟩)).trans (hd _)
  have hcall := runs_stage_allgather (r := r) hn hP hd hlen
    (length_region (mem.heap (callsOf pre).length) 0 (n * len)) hcnt
  unfold gatherBlocks
  rw [hd r]
  refine Runs.congr (List.append_nil _) (hcall.bind ?_)
  have hblocks : (fun q : Fin n => ((blocks P (callsOf pre).length n).drop (q * len)).take len) =
      d := funext fun q => (block_of_blocks hdata q.isLt).trans (hP q)
  have hstatic : ({ staticOf g pre with
      calls := (callsOf pre).length + 1
      allgCnt := int32 (counter (callsOf pre) (.allgather len) + 1) } : Static) =
      staticOf g (pre ++ [.call (.allgather len) d]) := by
    rw [hnext]
    simp [staticOf, counter, Call.isAllgather]
  dsimp only
  rw [hblocks]
  exact hstatic ▸ .pure _

theorem runs_linkedBcast (hroot : 0 < n) :
    Runs (expected n P) r (epochAfter pre) (linkedBcast r (d r) len (staticOf g pre))
      (stageEvents P r pre (.call (.bcast len) d))
      (broadcast (d ⟨0, hroot⟩), staticOf g (pre ++ [.call (.bcast len) d]))
      (epochAfter (pre ++ [.call (.bcast len) d])) := by
  obtain ⟨hcnt, hnext⟩ := counter_succ hroom (.bcast len)
  have hcall := runs_stage_bcast (r := r) hn hP hd hlen hcnt
  unfold linkedBcast
  refine Runs.congr (List.append_nil _) (hcall.bind ?_)
  have hstatic : ({ staticOf g pre with
      calls := (callsOf pre).length + 1
      bcstCnt := int32 (counter (callsOf pre) (.bcast len) + 1) } : Static) =
      staticOf g (pre ++ [.call (.bcast len) d]) := by
    rw [hnext]
    simp [staticOf, counter, Call.isAllgather]
  rw [show P 0 (callsOf pre).length = d ⟨0, hroot⟩ from hP ⟨0, hroot⟩]
  exact hstatic ▸ .pure _

end Calls

section Allgather

variable {pre : List (Stage n)} {len : ℕ} {src : Fin n → List Byte}
  {length_src : ∀ q, (src q).length = len} {mem : Fin n → Contents}

theorem stagesEvents_singleton (pre : List (Stage n)) (s : Stage n) :
    stagesEvents P r pre [s] = stageEvents P r pre s := List.append_nil _

def blockOf (src : Fin n → List Byte) (i _ : ℕ) : List Byte := if h : i < n then src ⟨i, h⟩ else []

theorem blockOf_eq (src : Fin n → List Byte) (q : Fin n) (j : ℕ) : blockOf src q j = src q :=
  dif_pos q.isLt

/-- The collective calls inside one `ctpm_Allgather`, as `allgather` sees them. -/
theorem runs_ctpmAllgather (hn : n < 2 ^ 31) (hfit : n * len < 2 ^ 31)
    (length_src : ∀ q, (src q).length = len) (j : ℕ) (before : ℤ → Byte) :
    Runs (Allgather.expected n (blockOf src)) r (Allgather.callsBefore j)
      (Allgather.ctpmAllgather (Equiv.refl (Fin n)) r (Allgather.known (Equiv.refl (Fin n)) j) (src r)
        len ⟨before, []⟩)
      (Allgather.rankEvents r j ++ [(j + 1, .sync (src r))])
      (Allgather.learned (Equiv.refl (Fin n)),
        Allgather.scattered (Equiv.refl (Fin n)) (blockOf src) j len before) (j + 2) := by
  have hlen : ∀ q < n, (blockOf src q j).length = len := fun q hq => by
    rw [blockOf, dif_pos hq, length_src]
  have h := Allgather.runs_ctpmAllgather (σ := Equiv.refl (Fin n)) (r := r) hlen hn hfit before
  rwa [blockOf_eq] at h

theorem region_scattered (length_src : ∀ q, (src q).length = len) (j : ℕ) (before : ℤ → Byte)
    (q : Fin n) :
    region (Allgather.scattered (Equiv.refl (Fin n)) (blockOf src) j len before).cell
      ((q * len : ℕ) : ℤ) len = src q := by
  have hlen : ∀ q < n, (blockOf src q j).length = len := fun q hq => by
    rw [blockOf, dif_pos hq, length_src]
  have hplaced := (Allgather.scattered_inRankOrder (σ := Equiv.refl (Fin n)) hlen before).block
    q q.isLt
  refine List.ext_getElem ((length_region _ _ _).trans (length_src q).symm) fun k _ hk => ?_
  have hcell := hplaced k (by rwa [blockOf_eq])
  simp only [blockOf_eq] at hcell
  simp only [region, List.getElem_map, List.getElem_range]
  rw [← Int.natCast_add, Nat.mul_comm (q : ℕ), hcell]

theorem gatherAfter_eq (pre : List (Stage n)) :
    gatherAfter pre = Allgather.known (Equiv.refl (Fin n)) (if gathered pre then 1 else 0) := by
  unfold gatherAfter
  split_ifs <;> rfl

theorem gatherAfter_gathered {pre : List (Stage n)} (h : gathered pre = true) :
    gatherAfter pre = Allgather.learned (Equiv.refl (Fin n)) := if_pos h

theorem foldl_move_gatherStage (pre : List (Stage n)) (calls : Gathers n) :
    calls.foldl (move fun _ c => [gatherStage c]) pre = pre ++ calls.map gatherStage := by
  induction calls generalizing pre with
  | nil => exact (List.append_nil _).symm
  | cons c calls ih => rw [List.foldl_cons, ih, move, List.append_assoc, List.singleton_append,
      List.map_cons]

theorem eventsAlong_gatherStage (pre : List (Stage n)) (calls : Gathers n) :
    eventsAlong (move fun _ c => [gatherStage c]) (fun pre c => stagesEvents P r pre [gatherStage c])
      pre calls = stagesEvents P r pre (calls.map gatherStage) := by
  have h := stagesEvents_foldl_move (P := P) (r := r) (fun _ c => [gatherStage c]) pre calls
  rw [foldl_move_gatherStage, stagesEvents_append, List.nil_append] at h
  exact (List.append_cancel_left h).symm

structure CanGather (P : ℕ → ℕ → List Byte) (pre : List (Stage n)) (calls : Gathers n) : Prop where
  lens : ∀ c ∈ calls, c.1 < 2 ^ 30 ∧ ∀ q, (c.2 q).length = c.1
  room : (callsOf pre).length + calls.length < 2 ^ 31
  carries : Carries P pre (calls.map gatherStage)

theorem CanGather.next {pre : List (Stage n)} {c : ℕ × (Fin n → List Byte)} {calls : Gathers n}
    (h : CanGather P pre (c :: calls)) : CanGather P (pre ++ [gatherStage c]) calls where
  lens c' hc' := h.lens c' (List.mem_cons_of_mem _ hc')
  room := by
    have := h.room
    rw [gatherStage, callsOf_append, callsOf_call, List.length_append, List.length_singleton]
    rw [List.length_cons] at this
    omega
  carries := h.carries.tail

/-- A program over `PMI_Allgather`, linked with the one of `ct_utils.c`. -/
theorem runs_gathers {upper : Allgather.Rank n α} {a : α} {e e' : ℕ} {g : Allgather.Static}
    {Ω : Oracle Allgather.pmi n} (mem : Contents) (hn : n < 2 ^ 31) {calls : Gathers n}
    (hcan : CanGather P pre calls)
    (hup : Runs Ω r e upper (callEvents Prod.snd r e calls) a e')
    (hgathered : ∀ k c, calls[k]? = some c → Ω.gathered (e + k) = c.2) :
    Runs (expected n P) r (epochAfter pre) (upper.link (pmiLibrary mem r) (staticOf g pre))
      (stagesEvents P r pre (calls.map gatherStage))
      (a, staticOf g (pre ++ calls.map gatherStage))
      (epochAfter (pre ++ calls.map gatherStage)) := by
  have hrun := Runs.link (pmiLibrary mem r) (expected n P) (move fun _ c => [gatherStage c])
    epochAfter (staticOf g) (fun pre c => stagesEvents P r pre [gatherStage c])
    (fun pre c calls (hcan : CanGather P pre (c :: calls)) => by
      obtain ⟨hlen, hd⟩ := hcan.lens c List.mem_cons_self
      have hroom := hcan.room
      rw [List.length_cons] at hroom
      refine ⟨?_, hcan.next⟩
      rw [stagesEvents_singleton]
      exact runs_gatherBlocks (by omega) mem hn (fun q => hcan.carries.head q) hd hlen)
    hcan hup hgathered
  rwa [foldl_move_gatherStage, eventsAlong_gatherStage] at hrun

end Allgather

end CrayTests.Ctpm
