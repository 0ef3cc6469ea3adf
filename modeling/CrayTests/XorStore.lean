import CrayTests.RankProgram
import CrayTests.XorSum

/-!
# Ranks updating each other's words

Each rank owns an array of words. It writes and reads its own words and changes words of any rank
by remote atomic exclusive ors, some of which the fabric may lose. Since exclusive or commutes, the
final contents do not depend on the order of the updates: when all writes come a barrier before all
updates and all reads a barrier after them, a word is the last value written to it, xored with the
updates that reach it.
-/

namespace XorStore
open RankProgram XorSum

variable {w n : ℕ} {A T C α : Type}

inductive Op (w n : ℕ) (A T : Type)
  | write (j : ℕ) (v : BitVec w)
  | read (j : ℕ)
  /-- The update labelled `tag` of the word of rank `q` at an address. -/
  | xor (tag : T) (q : Fin n) (a : A) (v : BitVec w)
  /-- A failed assertion or an undefined access: the rank makes no further step. -/
  | abort

@[reducible] def Op.Resp : Op w n A T → Type
  | .read _ => BitVec w
  | _ => Unit

@[reducible] def store (w n : ℕ) (A T C : Type) : Interface := ⟨Op w n A T, Op.Resp, C⟩

/-- How many words each rank has, which of them an address names, and which updates get lost. -/
structure Fabric (n : ℕ) (A T : Type) where
  size : Fin n → ℕ
  locate : Fin n → A → Option ℕ
  lost : Fin n → T → Prop

abbrev Words (w n : ℕ) := Fin n → ℕ → BitVec w

def Words.set (mem : Words w n) (q : Fin n) (j : ℕ) (v : BitVec w) : Words w n :=
  Function.update mem q (Function.update (mem q) j v)

theorem Words.set_apply (mem : Words w n) (q p : Fin n) (j k : ℕ) (v : BitVec w) :
    mem.set q j v p k = if p = q ∧ k = j then v else mem p k := by
  unfold Words.set
  by_cases hp : p = q
  · subst hp
    by_cases hk : k = j <;> simp [hk]
  · simp [hp]

variable (F : Fabric n A T)

/-- An update of an address that names no word has no effect. -/
def Words.Updated (mem : Words w n) (r : Fin n) (tag : T) (q : Fin n) (a : A) (v : BitVec w)
    (mem' : Words w n) : Prop :=
  (F.lost r tag ∧ mem' = mem) ∨ (¬ F.lost r tag ∧
    match F.locate q a with
    | some j => mem' = mem.set q j (mem q j ^^^ v)
    | none => mem' = mem)

@[reducible] def machine (w : ℕ) (C : Type) (F : Fabric n A T) : Machine (store w n A T C) n where
  Mem := Words w n
  perform r _
    | .write j v, mem, _, mem' => j < F.size r ∧ mem' = mem.set r j v
    | .read j, mem, x, mem' => j < F.size r ∧ x = mem r j ∧ mem' = mem
    | .xor tag q a v, mem, _, mem' => mem.Updated F r tag q a v mem'
    | .abort, _, _, _ => False
  drift _ _ := False

abbrev Ev (w n : ℕ) (A T C : Type) := ℕ × Event (store w n A T C)

abbrev writeEvent (j : ℕ) (v : BitVec w) : Event (store w n A T C) :=
  .op (Op.write j v : Op w n A T) ()

abbrev readEvent (j : ℕ) (x : BitVec w) : Event (store w n A T C) :=
  .op (Op.read j : Op w n A T) x

abbrev xorEvent (tag : T) (q : Fin n) (a : A) (v : BitVec w) : Event (store w n A T C) :=
  .op (Op.xor tag q a v : Op w n A T) ()

abbrev abortEvent : Event (store w n A T C) := .op (Op.abort : Op w n A T) ()

def written (j : ℕ) (init : BitVec w) (hist : List (Ev w n A T C)) : BitVec w :=
  hist.foldl (fun v ev =>
    match ev with
    | (_, .op (.write j' v') _) => if j' = j then v' else v
    | _ => v) init

open Classical in
/-- What an event of rank `r` adds to word `j` of rank `q`. -/
noncomputable def contribution (r q : Fin n) (j : ℕ) : Ev w n A T C → Xored w
  | (_, .op (.xor tag q' a v) _) =>
    if ¬ F.lost r tag ∧ q' = q ∧ F.locate q' a = some j then xored v else 0
  | _ => 0

noncomputable def received (hist : Fin n → List (Ev w n A T C)) (q : Fin n) (j : ℕ) : Xored w :=
  ∑ r, ((hist r).map (contribution F r q j)).sum

variable {F} {q : Fin n} {j : ℕ} {init : BitVec w} {hist hist' : List (Ev w n A T C)}

theorem written_append : written j init (hist ++ hist') = written j (written j init hist) hist' :=
  List.foldl_append

theorem written_write_ne {e j' : ℕ} {v v' : BitVec w} (h : j' ≠ j) :
    written j v [(e, writeEvent (A := A) (T := T) (C := C) (n := n) j' v')] = v := if_neg h

theorem written_of_forall_ne
    (h : ∀ e j' (v : BitVec w), (e, writeEvent j' v) ∉ hist) : written j init hist = init := by
  induction hist with
  | nil => rfl
  | cons ev hist ih =>
    have hrest := ih (fun e j' v hmem => h e j' v (List.mem_cons_of_mem _ hmem))
    obtain ⟨e, ev⟩ := ev
    cases ev with
    | sync c => exact hrest
    | op o x =>
      cases o with
      | write j' v => exact (h e j' v List.mem_cons_self).elim
      | _ => exact hrest

theorem sum_contribution_eq_zero {r : Fin n}
    (h : ∀ e tag p a (v : BitVec w), (e, xorEvent tag p a v) ∉ hist) :
    (hist.map (contribution F r q j)).sum = 0 := by
  refine List.sum_eq_zero (fun x hx => ?_)
  obtain ⟨⟨e, ev⟩, hmem, rfl⟩ := List.mem_map.mp hx
  cases ev with
  | sync c => rfl
  | op o x =>
    cases o with
    | xor tag p a v => exact (h e tag p a v hmem).elim
    | _ => rfl

theorem written_flatMap_range (f : ℕ → BitVec w) (e count : ℕ) :
    written j init ((List.range count).flatMap
      (fun i => [(e, writeEvent (A := A) (T := T) (C := C) (n := n) i (f i))])) =
      if j < count then f j else init := by
  induction count with
  | zero => rfl
  | succ count ih =>
    rw [List.range_succ, List.flatMap_append, written_append, ih]
    change (if count = j then f count else _) = _
    by_cases hj : count = j
    · subst hj
      rw [if_pos rfl, if_pos (Nat.lt_succ_self count)]
    · rw [if_neg hj]
      by_cases hlt : j < count
      · rw [if_pos hlt, if_pos (by omega)]
      · rw [if_neg hlt, if_neg (by omega)]

theorem sum_contribution_flatMap_range {r : Fin n} (ev : ℕ → Ev w n A T C) (count : ℕ) :
    (((List.range count).flatMap (fun i => [ev i])).map (contribution F r q j)).sum =
      ∑ i ∈ Finset.range count, contribution F r q j (ev i) := by
  induction count with
  | zero => rfl
  | succ count ih =>
    rw [List.range_succ, List.flatMap_append, List.map_append, List.sum_append, ih,
      Finset.sum_range_succ]
    simp

variable {code : Fin n → Program (store w n A T C) n α} {mem₀ : Words w n}
  {s : State (machine w C F) α} {Ω : Oracle (store w n A T C) n}

/-- One more event in the history of one rank. -/
theorem received_set (s : State (machine w C F) α) (r : Fin n) (mem : Words w n)
    (p : Proc (store w n A T C) n α) (ev : Ev w n A T C)
    (hdone : p.done = (s.proc r).done ++ [ev]) :
    received F (fun r' => ((State.set (m := machine w C F) s r mem p).proc r').done) q j =
      received F (fun r' => (s.proc r').done) q j + contribution F r q j ev := by
  have hterm (r' : Fin n) :
      ((((State.set (m := machine w C F) s r mem p).proc r').done).map
        (contribution F r' q j)).sum =
        ((s.proc r').done.map (contribution F r' q j)).sum +
          if r' = r then contribution F r q j ev else 0 := by
    by_cases h : r' = r
    · subst h
      simp [hdone]
    · simp [h]
  simp only [received, hterm, Finset.sum_add_distrib, Finset.sum_ite_eq', Finset.mem_univ, if_true]

variable (Ω F mem₀)

noncomputable def finalWord (code : Fin n → Program (store w n A T C) n α) (q : Fin n) (j : ℕ) :
    Xored w :=
  xored (written j (mem₀ q j) (trace Ω q 0 (code q))) +
    received F (fun r => trace Ω r 0 (code r)) q j

structure Phased (code : Fin n → Program (store w n A T C) n α) : Prop where
  coherent : Coherent Ω code
  writesFirst : ∀ r q e e' j v tag p a v', (e, writeEvent j v) ∈ trace Ω r 0 (code r) →
    (e', xorEvent tag p a v') ∈ trace Ω q 0 (code q) → e < e'
  readsLast : ∀ r q e e' j x tag p a v, (e, readEvent j x) ∈ trace Ω r 0 (code r) →
    (e', xorEvent tag p a v) ∈ trace Ω q 0 (code q) → e' < e
  readsAfterWrites : ∀ r e e' j x j' v, (e, readEvent j x) ∈ trace Ω r 0 (code r) →
    (e', writeEvent j' v) ∈ trace Ω r 0 (code r) → e' < e
  writeBound : ∀ r e j v, (e, writeEvent j v) ∈ trace Ω r 0 (code r) → j < F.size r
  readBound : ∀ r e j x, (e, readEvent j x) ∈ trace Ω r 0 (code r) → j < F.size r
  /-- A read is predicted to return the final contents. -/
  readFinal : ∀ r e j x, (e, readEvent j x) ∈ trace Ω r 0 (code r) →
    xored x = finalWord F mem₀ Ω code r j
  safe : ∀ r e, (e, abortEvent) ∉ trace Ω r 0 (code r)
  even : ∀ r q, lastEpoch Ω r 0 (code r) = lastEpoch Ω q 0 (code q)

variable {Ω F mem₀}

/-- The last value its rank has written to a word, xored with the updates done so far, is what the
word holds. -/
def Explained (F : Fabric n A T) (mem₀ : Words w n) (s : State (machine w C F) α) (q : Fin n)
    (j : ℕ) : Prop :=
  xored (s.mem q j) = xored (written j (mem₀ q j) (s.proc q).done) +
    received F (fun r => (s.proc r).done) q j

theorem explained_start (q : Fin n) (j : ℕ) :
    Explained F mem₀ (start (m := machine w C F) mem₀ code) q j := by
  have hzero : received F (fun r => ((start (m := machine w C F) mem₀ code).proc r).done) q j = 0 :=
    Finset.sum_eq_zero (fun r _ => rfl)
  rw [Explained, hzero, add_zero]
  rfl

/-- A step of rank `r` that does not write the word adds its contribution. -/
theorem Explained.set (h : Explained F mem₀ s q j) {r : Fin n}
    {p : Proc (store w n A T C) n α} {ev : Ev w n A T C}
    (hdone : p.done = (s.proc r).done ++ [ev]) (mem : Words w n)
    (hown : q = r → ∀ v, written j v [ev] = v)
    (hmem : xored (mem q j) = xored (s.mem q j) + contribution F r q j ev) :
    Explained F mem₀ (State.set (m := machine w C F) s r mem p) q j := by
  rw [Explained, received_set s r mem p ev hdone, State.set_mem, hmem, h, add_assoc]
  by_cases hq : q = r
  · subst hq
    rw [State.set_proc_self, hdone, written_append, hown rfl]
  · rw [State.set_proc_ne _ _ _ _ hq]

theorem Explained.of_done_eq (h : Explained F mem₀ s q j) {t : State (machine w C F) α}
    (hmem : t.mem = s.mem) (hdone : ∀ r, (t.proc r).done = (s.proc r).done) :
    Explained F mem₀ t q j := by
  simpa only [Explained, hmem, hdone] using h

theorem explained_write (s : State (machine w C F) α) (q : Fin n) (j : ℕ) {e : ℕ} (v : BitVec w)
    {p : Proc (store w n A T C) n α} (hdone : p.done = (s.proc q).done ++ [(e, writeEvent j v)])
    (hquiet : received F (fun r => (s.proc r).done) q j = 0) :
    Explained F mem₀ (State.set (m := machine w C F) s q (Words.set s.mem q j v) p) q j := by
  have hlast : written j (mem₀ q j) p.done = v := by
    rw [hdone, written_append]
    exact if_pos rfl
  have hnone : contribution F q q j (e, writeEvent (C := C) j v) = 0 := rfl
  rw [Explained, received_set s q _ p _ hdone, hquiet, hnone, State.set_proc_self, hlast,
    State.set_mem, Words.set_apply, if_pos ⟨rfl, rfl⟩, add_zero, add_zero]

theorem xored_updated {mem mem' : Words w n} {r p : Fin n} {tag : T} {a : A} {v : BitVec w}
    (h : mem.Updated F r tag p a v mem') (q : Fin n) (j e : ℕ) :
    xored (mem' q j) = xored (mem q j) + contribution F r q j (e, xorEvent (C := C) tag p a v) := by
  simp only [contribution]
  rcases h with ⟨hlost, rfl⟩ | ⟨hkept, h⟩
  · rw [if_neg (fun hc => hc.1 hlost), add_zero]
  · cases hloc : F.locate p a with
    | none =>
      simp only [hloc] at h
      subst h
      rw [if_neg (by simp), add_zero]
    | some i =>
      simp only [hloc] at h
      subst h
      rw [Words.set_apply]
      by_cases hcell : q = p ∧ j = i
      · obtain ⟨rfl, rfl⟩ := hcell
        rw [if_pos ⟨rfl, rfl⟩, if_pos ⟨hkept, rfl, rfl⟩, xored_xor]
      · rw [if_neg hcell, if_neg, add_zero]
        rintro ⟨-, rfl, hi⟩
        exact hcell ⟨rfl, (Option.some.inj hi).symm⟩

namespace Phased

variable (hp : Phased F mem₀ Ω code)
include hp

/-- While a rank still writes, no update has been done. -/
theorem received_eq_zero (hf : Follows Ω code s) {r : Fin n} {j' : ℕ} {v : BitVec w}
    {next : Unit → Program (store w n A T C) n α}
    (hcode : (s.proc r).code = .op (.write j' v : Op w n A T) next) :
    received F (fun r' => (s.proc r').done) q j = 0 := by
  refine Finset.sum_eq_zero (fun r' _ => sum_contribution_eq_zero ?_)
  intro e tag p a v' hmem
  have hlt := hp.writesFirst r r' _ e _ _ _ _ _ _ (hf.head_mem_trace hcode)
    (hf.mem_trace_of_done hmem)
  have hpast := hf.past r' e _ hmem
  have hahead := hf.epoch_le_of_op (q := r') hcode
  omega

/-- A word holds the last value its rank has written, xored with the updates done so far. -/
theorem explained (hs : Guided (m := machine w C F) Ω mem₀ code s) (q : Fin n) (j : ℕ) :
    Explained F mem₀ s q j := by
  induction hs generalizing q j with
  | refl => exact explained_start q j
  | @tail s t hguided hstep ih =>
    obtain ⟨hf, hstep⟩ := hstep
    cases hstep with
    | op r o next x mem hcode hperform =>
      cases o with
      | write j' v =>
        obtain ⟨-, rfl⟩ := hperform
        by_cases hcell : q = r ∧ j = j'
        · obtain ⟨rfl, rfl⟩ := hcell
          exact explained_write s q j v rfl (hp.received_eq_zero hf hcode)
        · refine (ih q j).set rfl _ 
            (fun hq _ => written_write_ne (fun hj => hcell ⟨hq, hj.symm⟩)) ?_
          rw [Words.set_apply, if_neg hcell]
          exact (add_zero _).symm
      | read j' =>
        obtain ⟨-, -, rfl⟩ := hperform
        exact (ih q j).set rfl _ (fun _ _ => rfl) (add_zero _).symm
      | xor tag p a v => exact (ih q j).set rfl _ (fun _ _ => rfl) (xored_updated hperform q j _)
      | abort => exact hperform.elim
    | enter r c next hcode hout => exact (ih q j).of_done_eq rfl (State.done_set_enter r s c)
    | leave r c next v hcode hin hall =>
      exact (ih q j).set rfl _ (fun _ _ => rfl) (add_zero _).symm
    | drift mem hd => exact hd.elim

/-- At a read all writes to the word and all updates of all ranks are done. -/
theorem word_at_read (hs : Guided (m := machine w C F) Ω mem₀ code s) (hf : Follows Ω code s)
    {r : Fin n} {j : ℕ} {next : BitVec w → Program (store w n A T C) n α}
    (hcode : (s.proc r).code = .op (.read j : Op w n A T) next) :
    xored (s.mem r j) = finalWord F mem₀ Ω code r j := by
  have hread := hf.head_mem_trace hcode
  have hwrites (e j' : ℕ) (v : BitVec w) :
      (e, writeEvent j' v) ∉ trace Ω r (s.proc r).epoch (s.proc r).code := by
    intro hmem
    have hle := le_of_mem_trace Ω r hmem
    have hlt := hp.readsAfterWrites r _ e _ _ _ _ hread (by
      rw [← hf.path r]
      exact List.mem_append_right _ hmem)
    omega
  have hxors (q : Fin n) (e : ℕ) (tag : T) (p : Fin n) (a : A) (v : BitVec w) :
      (e, xorEvent tag p a v) ∉ trace Ω q (s.proc q).epoch (s.proc q).code := by
    intro hmem
    have hle := hf.epoch_le_of_pending r q hmem
    have hlt := hp.readsLast r q _ e _ _ _ _ _ _ hread (by
      rw [← hf.path q]
      exact List.mem_append_right _ hmem)
    omega
  rw [hp.explained hs r j, finalWord]
  congr 1
  · rw [← hf.path r, written_append, written_of_forall_ne hwrites]
  · refine Finset.sum_congr rfl (fun q _ => ?_)
    simp only [← hf.path q, List.map_append, List.sum_append,
      sum_contribution_eq_zero (hxors q), add_zero]

theorem predicts : Predicts (m := machine w C F) Ω mem₀ code where
  coherent := hp.coherent
  resp s hs hf r o next x mem hcode hperform := by
    cases o with
    | read j =>
      obtain ⟨-, rfl, -⟩ := hperform
      have hword := hp.word_at_read hs hf hcode
      have hfinal := hp.readFinal r _ j _ (hf.head_mem_trace hcode)
      exact xored_inj.mp (hword.trans hfinal.symm)
    | _ => rfl
  answers s hs hf r o next hcode := by
    cases o with
    | write j v => exact ⟨(), _, hp.writeBound r _ j v (hf.head_mem_trace hcode), rfl⟩
    | read j => exact ⟨_, _, hp.readBound r _ j _ (hf.head_mem_trace hcode), rfl, rfl⟩
    | xor tag q a v =>
      by_cases hlost : F.lost r tag
      · exact ⟨(), _, Or.inl ⟨hlost, rfl⟩⟩
      · cases hloc : F.locate q a with
        | none => exact ⟨(), s.mem, Or.inr ⟨hlost, by simp only [hloc]⟩⟩
        | some j =>
          exact ⟨(), s.mem.set q j (s.mem q j ^^^ v), Or.inr ⟨hlost, by simp only [hloc]⟩⟩
    | abort => exact (hp.safe r _ (hf.head_mem_trace hcode)).elim
  even := hp.even
  still _ _ h := h

/-- When all ranks are finished every word has its final contents. -/
theorem word_of_halted (hs : Reachable (m := machine w C F) mem₀ code s) (hhalt : Halted s)
    (q : Fin n) (j : ℕ) : xored (s.mem q j) = finalWord F mem₀ Ω code q j := by
  have hf := hp.predicts.follows hs
  have hdone (r : Fin n) : (s.proc r).done = trace Ω r 0 (code r) := by
    obtain ⟨a, ha⟩ := hhalt r
    exact (hf.done_of_halted ha).1
  have hword := hp.explained (hp.predicts.guided hs) q j
  rw [Explained] at hword
  rw [hword, finalWord, hdone q]
  simp only [hdone]

end Phased

end XorStore
