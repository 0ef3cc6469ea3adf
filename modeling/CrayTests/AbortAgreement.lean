import CrayTests.RandomAccessErrors
import CrayTests.RandomAccessRun

/-!
# All ranks abort or none

Every rank brings to `ct_allreduce_int_sum` whether one of its own allocations failed, so the sum is
the number of ranks this happened to and the same on all of them. The contract of a rank: its `e`-th
collective call is the `e`-th of the one list of calls, in the reduction it passes its flag, and from
the first call to the last but one its blocks are allocated when no allocation failed.
-/

namespace CrayTests.RandomAccessRun
open CInteger RankProgram XorStore RandomAccess Relation

variable {l : Layout} {E : Setup l} {r : Fin l.numRanks} {e : ℕ} {st : Statics} {α : Type}

def Setup.sendAbort (E : Setup l) (r : Fin l.numRanks) : ℤ := if r ∈ E.failing then 1 else 0

def RunOp.InRange (r : Fin l.numRanks) : RunOp l → Prop
  | .storeLock index => index < l.numRanks
  | .access (.write j _) => j < l.localTableSize r
  | .access (.read j) => j < l.localTableSize r
  | _ => True

/-- What holds of the static variables of a rank that is in epoch `e`. -/
structure Setup.Local (E : Setup l) (e : ℕ) (st : Statics) : Prop where
  recvAbort_eq : ∀ val, st.recvAbort = some val → val = E.failing.card
  assigned : 4 ≤ e → st.recvAbort ≠ none
  valid : E.failing = ∅ → 1 ≤ e → e ≤ 24 → ∀ b, st.block b = .valid

/-- What holds of an operation that a rank is about to perform in epoch `e`. -/
structure Setup.May (E : Setup l) (r : Fin l.numRanks) (e : ℕ) (st : Statics) (o : RunOp l) :
    Prop where
  uses : ∀ u ∈ o.uses r, u.1 = r ∧ st.block u.2 = .valid ∨ E.failing = ∅ ∧ 4 ≤ e ∧ e ≤ 24
  inRange : o.InRange r
  abort : o ≠ .access .abort

def Setup.contract (E : Setup l) : Contract (runInterface l) l.numRanks Statics where
  brings e r c := E.calls[e]? = some c.kind ∧ (e = 1 → c.val = E.sendAbort r)
  may := E.May
  holds _ := E.Local

def Setup.view (E : Setup l) : View E.machine Statics where
  part mem := mem.statics
  frame {r q e o mem x mem'} h hq := by
    obtain ⟨-, h⟩ := h
    cases o with
    | malloc b => rw [h.2]; exact Function.update_of_ne hq _ _
    | free b => rw [show mem' = _ from h]; exact Function.update_of_ne hq _ _
    | setRecvAbort val => rw [show mem' = _ from h]; exact Function.update_of_ne hq _ _
    | storeLock index => rw [h.2]
    | fiMrReg b => rw [show mem' = _ from h]
    | access o =>
      obtain ⟨words, -, rfl⟩ := h
      rfl
  still h := h.elim

theorem part_set (mem : RunMem l) (r : Fin l.numRanks) (st : Statics) :
    E.view.part (mem.set r st) r = st := Function.update_self _ _ _

def Ends (e' : ℕ) (st' : Statics) : ℕ → α → Statics → Prop := fun e _ st => e = e' ∧ st = st'

abbrev Setup.Obeys (E : Setup l) (r : Fin l.numRanks) (Q : ℕ → α → Statics → Prop) (e : ℕ)
    (p : Run l α) (st : Statics) : Prop := RankProgram.Obeys E.view E.contract r Q e p st

theorem Setup.Obeys.seq {β : Type} {p : Run l α} {f : α → Run l β} {e' : ℕ} {st' : Statics}
    {Q : ℕ → β → Statics → Prop} (h : E.Obeys r (Ends e' st') e p st)
    (hf : ∀ a, E.Local e' st' → E.Obeys r Q e' (f a) st') : E.Obeys r Q e (p.bind f) st := by
  refine RankProgram.Obeys.bind h fun e₁ a st₁ hlocal hends => ?_
  obtain ⟨rfl, rfl⟩ := hends
  exact hf a hlocal

theorem Setup.Local.succ (h : E.Local e st) (hopen : e ≠ 0) (hassigned : e ≠ 3) :
    E.Local (e + 1) st where
  recvAbort_eq := h.recvAbort_eq
  assigned he := h.assigned (by omega)
  valid hnone _ hle := h.valid hnone (by omega) (by omega)

theorem calls_one : E.calls[1]? = some (.allgather 4) := by
  unfold Setup.calls
  split_ifs <;> rfl

theorem obeys_ctpmBarrier (h : E.Local e st) (hnext : E.Local (e + 1) st)
    (hcall : E.calls[e]? = some .barrier) : E.Obeys r (Ends (e + 1) st) e ctpmBarrier st := by
  refine ⟨h, ⟨hcall, ?_⟩, fun _ _ => ⟨hnext, rfl, rfl⟩⟩
  rintro rfl
  rw [calls_one] at hcall
  cases hcall

theorem obeys_ctpmAllgather {src : ℤ} {len : ℕ} (h : E.Local e st) (hnext : E.Local (e + 1) st)
    (hcall : E.calls[e]? = some (.allgather len)) (hsrc : e = 1 → src = E.sendAbort r) :
    E.Obeys r (fun e' vals st' => Ends (e + 1) st e' vals st' ∧ (e = 1 → vals = E.sendAbort)) e
      (ctpmAllgather len src) st := by
  refine ⟨h, ⟨hcall, hsrc⟩, fun v hv => ⟨hnext, ⟨rfl, rfl⟩, ?_⟩⟩
  intro he
  funext q
  exact (hv q).2 he

def Setup.allocated (E : Setup l) (r : Fin l.numRanks) (b : Block) : Pointer :=
  if E.allocates r b then .valid else .null

theorem obeys_malloc (b : Block) (h : E.Local e st)
    (hnext : E.Local e (st.point b (E.allocated r b))) :
    E.Obeys r (fun e' x st' => e' = e ∧ x = E.allocates r b ∧ st' = st.point b (E.allocated r b))
      e (malloc b) st := by
  refine ⟨h, ⟨by simp [RunOp.uses], trivial, nofun⟩, ?_⟩
  rintro mem x mem' rfl ⟨-, rfl, rfl⟩
  change E.Obeys r _ e (.pure (E.allocates r b))
    (E.view.part (mem.set r ((mem.statics r).point b (E.allocated r b))) r)
  rw [part_set]
  exact ⟨hnext, rfl, rfl, rfl⟩

/-- A step that leaves the static variables alone and is answered by nothing. -/
theorem obeys_quiet {o : RunOp l} {next : o.Resp → Run l α} {Q : ℕ → α → Statics → Prop}
    (h : E.Local e st) (hmay : E.May r e st o)
    (hquiet : ∀ mem x mem', E.effect r e o mem x mem' → mem'.statics r = mem.statics r)
    (hnext : ∀ x, E.Obeys r Q e (next x) st) : E.Obeys r Q e (.op o next) st := by
  refine ⟨h, hmay, ?_⟩
  rintro mem x mem' rfl ⟨-, heffect⟩
  rw [show E.view.part mem' r = E.view.part mem r from hquiet mem x mem' heffect]
  exact hnext x

theorem Setup.May.access {o : Op 64 l.numRanks ℕ Label} (hnone : E.failing = ∅) (hlo : 14 ≤ e)
    (hhi : e ≤ 24) (hrange : (RunOp.access o).InRange r) (habort : o ≠ .abort) :
    E.May r e st (.access o) where
  uses _ _ := Or.inr ⟨hnone, by omega, hhi⟩
  inRange := hrange
  abort h := habort (RunOp.access.inj h)

theorem obeys_free (b : Block) (h : E.Local e st) (hvalid : st.block b = .valid)
    (hnext : E.Local e (st.point b .dangling)) :
    E.Obeys r (Ends e (st.point b .dangling)) e (free b) st := by
  refine ⟨h, ⟨?_, trivial, nofun⟩, ?_⟩
  · simp [RunOp.uses, hvalid]
  · rintro mem x mem' rfl ⟨-, rfl⟩
    rw [part_set]
    exact ⟨hnext, rfl, rfl⟩

theorem obeys_setRecvAbort (h : E.Local e st) :
    E.Obeys r (Ends e { st with recvAbort := some (E.failing.card : ℤ) }) e
      (setRecvAbort E.failing.card) st := by
  refine ⟨h, ⟨by simp [RunOp.uses], trivial, nofun⟩, ?_⟩
  rintro mem x mem' rfl ⟨-, rfl⟩
  rw [part_set]
  refine ⟨⟨?_, nofun, h.valid⟩, rfl, rfl⟩
  intro val hval
  exact (Option.some.inj hval).symm

theorem obeys_storeLock {index : ℕ} (h : E.Local e st) (hvalid : st.block .hpccLock = .valid)
    (hindex : index < l.numRanks) : E.Obeys r (Ends e st) e (storeLock index) st := by
  refine obeys_quiet h ⟨?_, hindex, nofun⟩ ?_ fun _ => ⟨h, rfl, rfl⟩
  · simp [RunOp.uses, hvalid]
  · rintro mem x mem' ⟨-, rfl⟩
    rfl

theorem obeys_initLock (h : E.Local e st) (hvalid : st.block .hpccLock = .valid) :
    E.Obeys r (Ends e st) e initLock st := by
  refine Obeys.loop (fun _ => Ends e st) (fun k hk e' _ st' _ hinv => ?_) h ⟨rfl, rfl⟩
  obtain ⟨rfl, rfl⟩ := hinv
  exact obeys_storeLock h hvalid (by omega)

theorem obeys_fiMrReg (b : Block) (h : E.Local e st) (hvalid : st.block b = .valid) :
    E.Obeys r (Ends e st) e (fiMrReg b) st := by
  refine obeys_quiet h ⟨?_, trivial, nofun⟩ ?_ fun _ => ⟨h, rfl, rfl⟩
  · simp [RunOp.uses, hvalid]
  · rintro mem x mem' rfl
    rfl

theorem sum_sendAbort :
    ∑ i ∈ Finset.range l.numRanks,
      (if h : i < l.numRanks then E.sendAbort ⟨i, h⟩ else 0) = E.failing.card := by
  rw [Finset.sum_range]
  simp only [Fin.is_lt, dite_true, Fin.eta, Setup.sendAbort]
  rw [Finset.sum_ite_mem, Finset.univ_inter, Finset.sum_const, nsmul_eq_mul, mul_one]

theorem failing_card_lt : E.failing.card < 2 ^ 31 :=
  ((Finset.card_le_univ _).trans_eq (Fintype.card_fin _)).trans_lt l.ranks_int

/-- The sum of the flags, as `ct_allreduce_int_sum` forms it. -/
theorem foldl_sendAbort :
    (List.range (l.numRanks - 1)).foldl
      (fun ret i => int32 (ret + if h : i + 1 < l.numRanks then E.sendAbort ⟨i + 1, h⟩ else 0))
      (if h : 0 < l.numRanks then E.sendAbort ⟨0, h⟩ else 0) = E.failing.card := by
  let flagAt : ℕ → ℤ := fun i => if h : i < l.numRanks then E.sendAbort ⟨i, h⟩ else 0
  have hranks : l.numRanks - 1 + 1 = l.numRanks := Nat.sub_add_cancel l.ranks_pos
  have hwrap (x : ℤ) (hx : 0 ≤ x) (hlt : x < 2 ^ 31) : int32 x = x := int32_eq_self (by omega) hlt
  have hpos (i : ℕ) : 0 ≤ flagAt i := by
    simp only [flagAt, Setup.sendAbort]
    split_ifs <;> omega
  have hsum : ∑ i ∈ Finset.range (l.numRanks - 1 + 1), flagAt i = E.failing.card := by
    rw [hranks]
    exact sum_sendAbort
  have hfit : ∑ i ∈ Finset.range (l.numRanks - 1 + 1), flagAt i < 2 ^ 31 := by
    rw [hsum]
    have := failing_card_lt (E := E)
    omega
  exact (foldl_wrap_sum hwrap (l.numRanks - 1) hpos hfit).trans hsum

theorem obeys_ctAllreduceIntSum (h : E.Local 1 st) :
    E.Obeys r (fun e (a : ℤ) st' => Ends 3 st e a st' ∧ a = E.failing.card) 1
      (ctAllreduceIntSum (E.sendAbort r)) st := by
  have hlocal := h.succ one_ne_zero (by norm_num)
  refine (obeys_ctpmAllgather h hlocal calls_one fun _ => rfl).bind fun e vals st' _ hends => ?_
  obtain ⟨⟨rfl, rfl⟩, hvals⟩ := hends
  rw [hvals rfl]
  have hcall : E.calls[2]? = some .barrier := by
    unfold Setup.calls
    split_ifs <;> rfl
  refine (obeys_ctpmBarrier hlocal (hlocal.succ two_ne_zero (by norm_num)) hcall).seq fun _ h' => ?_
  exact ⟨h', ⟨rfl, rfl⟩, foldl_sendAbort⟩

theorem obeys_sync {c : Exchange} {next : (Fin l.numRanks → Exchange) → Run l α}
    {Q : ℕ → α → Statics → Prop} (h : E.Local e st) (he : 4 ≤ e)
    (hcall : E.calls[e]? = some c.kind)
    (hnext : ∀ v, E.Local (e + 1) st → E.Obeys r Q (e + 1) (next v) st) :
    E.Obeys r Q e (.sync c next) st := by
  refine ⟨h, ⟨hcall, ?_⟩, fun v _ => hnext v (h.succ (by omega) (by omega))⟩
  intro he1
  omega

section AllAllocated

variable (hnone : E.failing = ∅)
include hnone

theorem calls_completed : E.calls = completedCalls := by
  rw [Setup.calls, hnone]
  rfl

theorem getElem_calls {k : Kind} (h : completedCalls[e]? = some k) : E.calls[e]? = some k := by
  rwa [calls_completed hnone]

theorem obeys_exchangeRegistrationData (h : E.Local 4 st) :
    E.Obeys r (Ends 14 st) 4 (exchangeRegistrationData E r) st := by
  have hbarrier {e : ℕ} (h : E.Local e st) (he : 4 ≤ e)
      (hcall : completedCalls[e]? = some .barrier) : E.Obeys r (Ends (e + 1) st) e ctpmBarrier st :=
    obeys_sync h he (getElem_calls hnone hcall) fun _ h => ⟨h, rfl, rfl⟩
  have hgather {e : ℕ} (src : ℤ) (h : E.Local e st) (he : 4 ≤ e)
      (hcall : completedCalls[e]? = some (.allgather 8)) :
      E.Obeys r (Ends (e + 1) st) e (ctpmAllgather 8 src) st :=
    obeys_sync h he (getElem_calls hnone hcall) fun _ h => ⟨h, rfl, rfl⟩
  refine (hbarrier h (by norm_num) rfl).seq fun _ h => ?_
  refine (hgather _ h (by norm_num) rfl).seq fun _ h => ?_
  refine (hbarrier h (by norm_num) rfl).seq fun _ h => ?_
  refine (hgather _ h (by norm_num) rfl).seq fun _ h => ?_
  refine (hbarrier h (by norm_num) rfl).seq fun _ h => ?_
  refine (hgather _ h (by norm_num) rfl).seq fun _ h => ?_
  refine (hbarrier h (by norm_num) rfl).seq fun _ h => ?_
  refine (hbarrier h (by norm_num) rfl).seq fun _ h => ?_
  refine (hgather _ h (by norm_num) rfl).seq fun _ h => ?_
  exact hbarrier h (by norm_num) rfl

theorem obeys_access {o : Op 64 l.numRanks ℕ Label}
    {next : o.Resp → Run l α} {Q : ℕ → α → Statics → Prop} (h : E.Local e st) (hlo : 14 ≤ e)
    (hhi : e ≤ 24) (hrange : (RunOp.access o).InRange r) (habort : o ≠ .abort)
    (hnext : ∀ x, E.Obeys r Q e (next x) st) : E.Obeys r Q e (.op (RunOp.access o) next) st := by
  refine obeys_quiet h (.access hnone hlo hhi hrange habort) ?_ hnext
  rintro mem x mem' ⟨words, -, rfl⟩
  rfl

theorem obeys_initTable (h : E.Local e st) (hlo : 14 ≤ e) (hhi : e ≤ 24) :
    E.Obeys r (Ends e st) e ((initTable r).embed (accessEmbedding l)) st := by
  rw [initTable, Program.embed_loop]
  refine Obeys.loop (fun _ => Ends e st) (fun k hk e' _ st' _ hinv => ?_) h ⟨rfl, rfl⟩
  obtain ⟨rfl, rfl⟩ := hinv
  refine obeys_access hnone h hlo hhi ?_ nofun fun _ => ⟨h, rfl, rfl⟩
  change 0 + k < l.localTableSize r
  omega

omit hnone in
/-- The rank an update is addressed to exists, whatever the sizes of the tables. -/
theorem route_range (ran : Word) :
    0 ≤ (l.route (l.offset ran)).1 ∧ (l.route (l.offset ran)).1 < l.numRanks := by
  have hoff : l.offset ran < l.globalStart l.numRanks := by
    rw [l.globalStart_numRanks]
    exact Layout.offset_lt ran
  obtain ⟨rank, hrank, hle, hlt⟩ := l.tiles.exists_tile hoff
  have hword : l.offset ran < 2 ^ 64 := BitVec.isLt _
  rw [l.route_fst hrank hword hle hlt]
  exact ⟨Int.natCast_nonneg _, Int.ofNat_lt.mpr hrank⟩

theorem obeys_updateRound (second : Bool) (i : ℕ) (ran : Word) (h : E.Local e st) (hlo : 14 ≤ e)
    (hhi : e ≤ 24) :
    E.Obeys r (Ends e st) e ((updateRound E.buffers r second i ran).embed (accessEmbedding l))
      st := by
  unfold updateRound lfAtomicXor
  dsimp only
  rw [Program.bind_eq, Program.embed_bind, dif_pos (route_range _)]
  exact obeys_access hnone h hlo hhi trivial nofun fun _ => ⟨h, rfl, rfl⟩

theorem obeys_updateTable (second : Bool) (h : E.Local e st) (hlo : 14 ≤ e) (hhi : e + 1 ≤ 24)
    (hfirst : completedCalls[e]? = some .barrier)
    (hlast : completedCalls[e + 1]? = some .barrier) :
    E.Obeys r (Ends (e + 2) st) e
      ((updateTable E.buffers r second).embed (accessEmbedding l)) st := by
  rw [updateTable, Program.bind_eq, Program.embed_bind]
  refine obeys_sync h (by omega) (getElem_calls hnone hfirst) fun _ h => ?_
  change E.Obeys r _ _ (Program.embed _ (Program.bind _ _)) _
  rw [Program.embed_bind, Program.embed_loop]
  have hloop : E.Obeys r (Ends (e + 1) st) (e + 1) (Program.loop
      (fun i a => (updateRound E.buffers r second i a).embed (accessEmbedding l)) 0
      (l.procNumUpdates r) (l.savedInitialRanVal r)) st := by
    refine Obeys.loop (fun _ => Ends (e + 1) st) (fun k _ e' a st' _ hinv => ?_) h ⟨rfl, rfl⟩
    obtain ⟨rfl, rfl⟩ := hinv
    exact obeys_updateRound hnone second _ a h (by omega) hhi
  refine hloop.seq fun _ h => ?_
  exact obeys_sync h (by omega) (getElem_calls hnone hlast) fun _ h => ⟨h, rfl, rfl⟩

theorem obeys_countErrors (h : E.Local e st) (hlo : 14 ≤ e) (hhi : e ≤ 24) :
    E.Obeys r (Ends e st) e ((countErrors r).embed (accessEmbedding l)) st := by
  rw [countErrors, Program.embed_loop]
  refine Obeys.loop (fun _ => Ends e st) (fun k hk e' _ st' _ hinv => ?_) h ⟨rfl, rfl⟩
  obtain ⟨rfl, rfl⟩ := hinv
  refine obeys_access hnone h hlo hhi ?_ nofun fun _ => ⟨h, rfl, rfl⟩
  change 0 + k < l.localTableSize r
  omega

theorem obeys_randomAccess_access (h : E.Local 14 st) :
    E.Obeys r (Ends 25 st) 14
      ((RandomAccess.randomAccess E.buffers r).embed (accessEmbedding l)) st := by
  have hcall {e : ℕ} {k : Kind} (h : completedCalls[e]? = some k) := getElem_calls hnone h
  simp only [RandomAccess.randomAccess, firstUpdate, ctAllreduceInt64Sum, Program.bind_eq,
    Program.pure_eq, Program.embed_bind]
  have hfirst : E.Obeys r (Ends 16 st) 14 (((initTable r).embed (accessEmbedding l)).bind
      fun _ => (updateTable E.buffers r false).embed (accessEmbedding l)) st := by
    refine (obeys_initTable hnone h le_rfl (by norm_num)).seq fun _ h => ?_
    exact obeys_updateTable hnone false h le_rfl (by norm_num) rfl rfl
  refine hfirst.seq fun _ h => ?_
  refine obeys_sync h (by norm_num) (hcall rfl) fun _ h => ?_
  refine obeys_sync h (by norm_num) (hcall rfl) fun _ h => ?_
  refine obeys_sync h (by norm_num) (hcall rfl) fun _ h => ?_
  refine (obeys_updateTable hnone true h (by norm_num) (by norm_num) rfl rfl).seq fun _ h => ?_
  refine (obeys_countErrors hnone h (by norm_num) (by norm_num)).seq fun numErrors h => ?_
  refine obeys_sync h (by norm_num) (hcall rfl) fun _ h => ?_
  refine obeys_sync h (by norm_num) (hcall rfl) fun _ h => ?_
  refine obeys_sync h (by norm_num) (hcall rfl) fun _ h => ?_
  exact obeys_sync h (by norm_num) (hcall rfl) fun _ h => ⟨h, rfl, rfl⟩

end AllAllocated

theorem mem_failing : r ∈ E.failing ↔ ¬ (E.allocates r .hpccTable ∧ E.allocates r .hpccLock) := by
  simp [Setup.failing]

theorem allocates_of_none (hnone : E.failing = ∅) (r : Fin l.numRanks) (b : Block) :
    E.allocates r b := by
  have hboth : E.allocates r .hpccTable ∧ E.allocates r .hpccLock := by
    by_contra hfail
    have := mem_failing.mpr hfail
    simp [hnone] at this
  cases b with
  | hpccTable => exact hboth.1
  | hpccLock => exact hboth.2

def Setup.opened (E : Setup l) (r : Fin l.numRanks) : Statics := { block := E.allocated r }

theorem local_opened : E.Local 1 (E.opened r) where
  recvAbort_eq val h := by cases h
  assigned h := by omega
  valid hnone _ _ b := if_pos (allocates_of_none hnone r b)

theorem local_zero (h : st.recvAbort = none) : E.Local 0 st where
  recvAbort_eq val hval := by rw [h] at hval; cases hval
  assigned h := by omega
  valid _ h := by omega

theorem point_point_opened :
    (({} : Statics).point .hpccTable (E.allocated r .hpccTable)).point .hpccLock
      (E.allocated r .hpccLock) = E.opened r := by
  unfold Statics.point Setup.opened
  congr 1
  funext b
  cases b <;> simp

theorem sendAbort_eq (r : Fin l.numRanks) :
    (if !E.allocates r .hpccLock then 1 else if !E.allocates r .hpccTable then 1 else 0) =
      E.sendAbort r := by
  unfold Setup.sendAbort
  simp only [mem_failing]
  cases E.allocates r .hpccTable <;> cases E.allocates r .hpccLock <;> rfl

def Setup.agreed (E : Setup l) (r : Fin l.numRanks) : Statics :=
  { E.opened r with recvAbort := some (E.failing.card : ℤ) }

theorem local_agreed {block : Block → Pointer} (hblock : E.failing = ∅ → e ≤ 24 →
    ∀ b, block b = .valid) : E.Local e { E.agreed r with block := block } where
  recvAbort_eq _ h := (Option.some.inj h).symm
  assigned _ := nofun
  valid hnone _ hle := hblock hnone hle

/-- How `random_access` ends: after the last call, on the path all ranks are on. -/
def Setup.Finished (E : Setup l) (e : ℕ) (ended : Ended) (st : Statics) : Prop :=
  e = E.calls.length ∧ ended = E.ended ∧ st.recvAbort = some (E.failing.card : ℤ)

theorem obeys_aborted (hpos : 0 < E.failing.card) :
    E.Obeys r E.Finished 4 (do
      if E.allocates r .hpccTable then free .hpccTable
      failedTable .failedTable) (E.agreed r) := by
  have hcalls : E.calls = failedCalls := if_pos hpos
  have hlocal (e : ℕ) (block : Block → Pointer) : E.Local e { E.agreed r with block := block } :=
    local_agreed fun hnone => by simp [hnone] at hpos
  have hend (block : Block → Pointer) :
      E.Obeys r E.Finished 4 (failedTable .failedTable) { E.agreed r with block := block } := by
    refine obeys_sync (hlocal 4 block) le_rfl (by rw [hcalls]; rfl) fun _ h => ⟨h, ?_, ?_, rfl⟩
    · rw [hcalls]
      rfl
    · exact (if_pos hpos).symm
  by_cases htable : E.allocates r .hpccTable
  · rw [if_pos htable]
    have hvalid : (E.agreed r).block .hpccTable = .valid := if_pos htable
    exact (obeys_free .hpccTable (hlocal 4 _) hvalid (hlocal 4 _)).seq fun _ _ => hend _
  · rw [if_neg htable]
    exact hend _

theorem obeys_completed (hnone : E.failing = ∅) :
    E.Obeys r E.Finished 4 (do
      initLock
      fiMrReg .hpccTable
      fiMrReg .hpccLock
      exchangeRegistrationData E r
      let _ ← (RandomAccess.randomAccess E.buffers r).embed (accessEmbedding l)
      free .hpccTable
      free .hpccLock
      failedTable .completed) (E.agreed r) := by
  have hvalid (b : Block) : (E.agreed r).block b = .valid := if_pos (allocates_of_none hnone r b)
  have hlocal (block : Block → Pointer) : E.Local 25 { E.agreed r with block := block } :=
    local_agreed fun _ h => by omega
  have h4 : E.Local 4 (E.agreed r) := local_agreed (r := r) fun _ _ => hvalid
  refine (obeys_initLock h4 (hvalid _)).seq fun _ h => ?_
  refine (obeys_fiMrReg .hpccTable h (hvalid _)).seq fun _ h => ?_
  refine (obeys_fiMrReg .hpccLock h (hvalid _)).seq fun _ h => ?_
  refine (obeys_exchangeRegistrationData hnone h).seq fun _ h => ?_
  refine (obeys_randomAccess_access hnone h).seq fun _ h => ?_
  refine (obeys_free .hpccTable h (hvalid _) (hlocal _)).seq fun _ h => ?_
  refine (obeys_free .hpccLock h (hvalid _) (hlocal _)).seq fun _ h => ?_
  refine obeys_sync h (by norm_num) (getElem_calls hnone rfl) fun _ h => ⟨h, ?_, ?_, rfl⟩
  · rw [calls_completed hnone]
    rfl
  · rw [Setup.ended, hnone]
    rfl

theorem obeys_randomAccess (r : Fin l.numRanks) :
    E.Obeys r E.Finished 0 (randomAccess E r) {} := by
  refine (obeys_malloc .hpccTable (local_zero rfl) (local_zero rfl)).bind fun e table st _ h => ?_
  obtain ⟨rfl, rfl, rfl⟩ := h
  refine (obeys_malloc .hpccLock (local_zero rfl) (local_zero rfl)).bind fun e lock st _ h => ?_
  obtain ⟨rfl, rfl, rfl⟩ := h
  rw [point_point_opened]
  dsimp only
  rw [sendAbort_eq]
  refine (obeys_ctpmBarrier (local_zero rfl) local_opened ?_).seq fun _ h => ?_
  · unfold Setup.calls
    split_ifs <;> rfl
  refine (obeys_ctAllreduceIntSum h).bind fun e recvAbort st _ h => ?_
  obtain ⟨⟨rfl, rfl⟩, rfl⟩ := h
  have h3 : E.Local 3 (E.opened r) :=
    (local_opened.succ one_ne_zero (by norm_num)).succ two_ne_zero (by norm_num)
  have hvalid (hnone : E.failing = ∅) (b : Block) : E.allocated r b = .valid :=
    if_pos (allocates_of_none hnone r b)
  refine (obeys_setRecvAbort h3).seq fun _ h => ?_
  refine (obeys_ctpmBarrier h (local_agreed (r := r) fun hnone _ => hvalid hnone) ?_).seq
    fun _ h => ?_
  · unfold Setup.calls
    split_ifs <;> rfl
  by_cases hpos : 0 < E.failing.card
  · rw [if_pos (by exact_mod_cast hpos)]
    exact obeys_aborted hpos
  · rw [if_neg (by exact_mod_cast hpos)]
    exact obeys_completed (Finset.card_eq_zero.mp (Nat.eq_zero_of_not_pos hpos))

variable {words : Words 64 l.numRanks} {s : RunState E}

theorem keeps_run (hs : RunReachable E words s) :
    Keeps E.view E.contract (fun _ => E.Finished) s := keeps_of_reachable obeys_randomAccess hs

theorem uses_allocated (hk : Keeps E.view E.contract (fun _ => E.Finished) s) {o : RunOp l}
    {next : o.Resp → Run l Ended} (hcode : (s.proc r).code = .op o next)
    {u : Fin l.numRanks × Block} (hu : u ∈ o.uses r) : s.mem.Allocated u := by
  rcases (hk.may hcode).uses u hu with ⟨rfl, hvalid⟩ | ⟨hnone, hlo, hhi⟩
  · exact hvalid
  · -- the owner is in the same part of its program
    have hr := hk.epoch_eq hcode
    have hahead := hk.behind r u.1
    have hbehind := hk.behind u.1 r
    have hle := hk.le_epoch_succ u.1
    exact (hk.holds u.1).valid hnone (by omega) (by omega) u.2

theorem exists_perform (hk : Keeps E.view E.contract (fun _ => E.Finished) s) {o : RunOp l}
    {next : o.Resp → Run l Ended} (hcode : (s.proc r).code = .op o next) :
    ∃ x mem, E.machine.perform r (s.proc r).epoch o s.mem x mem := by
  have huses := fun u hu => uses_allocated hk hcode (u := u) hu
  have hrange := (hk.may hcode).inRange
  cases o with
  | malloc b => exact ⟨_, _, huses, rfl, rfl⟩
  | free b => exact ⟨(), _, huses, rfl⟩
  | setRecvAbort val => exact ⟨(), _, huses, rfl⟩
  | storeLock index => exact ⟨(), _, huses, hrange, rfl⟩
  | fiMrReg b => exact ⟨(), _, huses, rfl⟩
  | access o =>
    cases o with
    | write j v => exact ⟨(), _, huses, _, ⟨hrange, rfl⟩, rfl⟩
    | read j => exact ⟨_, _, huses, _, ⟨hrange, rfl, rfl⟩, rfl⟩
    | xor label q addr v =>
      by_cases hlost : (r, label) ∈ E.lost
      · exact ⟨(), _, huses, _, Or.inl ⟨hlost, rfl⟩, rfl⟩
      · cases hlocate : E.buffers.locate q addr with
        | none => exact ⟨(), _, huses, s.mem.words, Or.inr ⟨hlost, by simp [fabric, hlocate]⟩, rfl⟩
        | some j =>
          exact ⟨(), _, huses, s.mem.words.set q j (s.mem.words q j ^^^ v),
            Or.inr ⟨hlost, by simp [fabric, hlocate]⟩, rfl⟩
    | abort => exact absurd rfl (hk.may hcode).abort

/-- The ranks agree on the sum of the flags and on the path, no operation works on a block that is
not allocated, and all make the same calls. The reduction and the whole of `random_access` can always
return. -/
structure Agrees (s : RunState E) : Prop where
  recvAbort : ∀ r val, (s.mem.statics r).recvAbort = some val → val = E.failing.card
  allocated : ∀ r o next, (s.proc r).code = .op o next → ∀ u ∈ o.uses r, s.mem.Allocated u
  calls : ∀ r, (s.proc r).sent.map Exchange.kind <+: E.calls
  ended : ∀ r ended, (s.proc r).code = .pure ended →
    ended = E.ended ∧ (s.proc r).sent.map Exchange.kind = E.calls
  returns : ∃ t, ReflTransGen Step s t ∧
    (∀ r, (t.mem.statics r).recvAbort = some (E.failing.card : ℤ)) ∧ Halted t

theorem calls_isPrefix (hk : Keeps E.view E.contract (fun _ => E.Finished) s)
    (r : Fin l.numRanks) : (s.proc r).sent.map Exchange.kind <+: E.calls := by
  rw [List.prefix_iff_getElem?]
  intro i hi
  rw [List.length_map] at hi
  rw [List.getElem_map, (hk.brings r i _ (List.getElem?_eq_getElem hi)).1]

theorem five_le_length_calls : 5 ≤ E.calls.length := by
  unfold Setup.calls
  split_ifs <;> decide

/-- In a final state no rank is about to perform an operation. -/
theorem not_op_of_final (hk : Keeps E.view E.contract (fun _ => E.Finished) s)
    (hfinal : Final s) {o : RunOp l} {next : o.Resp → Run l Ended} :
    (s.proc r).code ≠ .op o next := by
  intro hcode
  obtain ⟨x, mem, hperform⟩ := exists_perform hk hcode
  exact hfinal.not_op hcode x mem hperform

/-- In a final state all ranks have made all their calls. -/
theorem le_sent_of_final (hk : Keeps E.view E.contract (fun _ => E.Finished) s)
    (hfinal : Final s) (r : Fin l.numRanks) : E.calls.length ≤ (s.proc r).sent.length := by
  refine hfinal.le_sent hk.toPaced (fun r hr => ?_) r
  cases hcode : (s.proc r).code with
  | pure ended =>
    have := (hk.outcome hcode).1
    omega
  | op o next => exact absurd hcode (not_op_of_final hk hfinal)
  | sync c next => exact ⟨c, next, rfl⟩

theorem returns_of_runReachable (hs : RunReachable E words s) :
    ∃ t, ReflTransGen Step s t ∧
      (∀ r, (t.mem.statics r).recvAbort = some (E.failing.card : ℤ)) ∧ Halted t := by
  obtain ⟨t, hst, hfinal⟩ := exists_final (fun _ _ => id) s
  have hk := keeps_run (s := t) (hs.trans hst)
  have hsent := le_sent_of_final hk hfinal
  refine ⟨t, hst, fun r => ?_, fun r => ?_⟩
  · -- the fifth call comes after the assignment of `recv_abort`
    have hle := (five_le_length_calls (E := E)).trans (hsent r)
    have hepoch := hk.le_epoch_succ r
    obtain ⟨val, hval⟩ := Option.ne_none_iff_exists'.mp ((hk.holds r).assigned (by omega))
    rw [← (hk.holds r).recvAbort_eq val hval]
    exact hval
  · cases hcode : (t.proc r).code with
    | pure ended => exact ⟨ended, rfl⟩
    | op o next => exact absurd hcode (not_op_of_final hk hfinal)
    | sync c next =>
      obtain ⟨-, q, hq⟩ := hfinal.exists_behind hk.toPaced hcode
      have hlt := (List.getElem?_eq_some_iff.mp (hk.next_brings hcode).1).1
      have := hsent q
      omega

theorem agrees_of_runReachable (hs : RunReachable E words s) : Agrees s := by
  have hk := keeps_run hs
  refine ⟨fun r => (hk.holds r).recvAbort_eq, fun r o next hcode u => uses_allocated hk hcode,
    calls_isPrefix hk, fun r ended hcode => ?_, returns_of_runReachable hs⟩
  obtain ⟨hepoch, hended, -⟩ := hk.outcome hcode
  refine ⟨hended, (calls_isPrefix hk r).eq_of_length ?_⟩
  rw [List.length_map, ← hepoch]
  rcases hk.waits r with heq | ⟨c, next, hsync, -⟩
  · exact heq
  · rw [hcode] at hsync
    cases hsync

def oneFails : Setup threeRanks where
  buffers := threeBuffers
  allocates r b := r.val != 2 || b == .hpccLock
  key _ _ := 0
  lockAddr _ := 0
  lost := ∅

theorem agrees_of_runReachable_oneFails :
    ∃ t : RunState oneFails, RunReachable oneFails (fun _ _ => 0) t ∧
      ∀ r, (t.proc r).code = .pure .failedTable ∧ (t.mem.statics r).recvAbort = some 1 ∧
        (t.proc r).sent.map Exchange.kind = failedCalls := by
  have hone : oneFails.failing.card = 1 := by decide
  obtain ⟨t, hst, hrecv, hhalt⟩ :=
    (agrees_of_runReachable (show RunReachable oneFails (fun _ _ => 0) _ from .refl)).returns
  refine ⟨t, hst, fun r => ?_⟩
  obtain ⟨ended, hcode⟩ := hhalt r
  obtain ⟨hended, hcalls⟩ := (agrees_of_runReachable hst).ended r ended hcode
  rw [hcode, hended, hcalls, hrecv r, hone]
  exact ⟨rfl, rfl, by decide⟩

end CrayTests.RandomAccessRun
