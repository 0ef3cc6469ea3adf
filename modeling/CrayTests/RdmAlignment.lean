import CrayTests.RdmRuns

/-!
# Which failures leave the collective calls aligned

When the lists of calls are compatible, all calls are paired right and every thread stores what the
same thread of the peer sent. Otherwise there is a first position at which the lists differ, and a
run in which both ranks enter these two calls.
-/

namespace CrayTests.RdmOneSided
open RankProgram

variable {E : Setup}

/-- Calls with the same number are the same exchange, and what is stored for a thread belongs to
this thread of the peer. -/
structure Aligned (E : Setup) (s : JobState E) : Prop where
  calls : ∀ (n : ℕ) (x y : Exchange), (s.proc 0).sent[n]? = some x → (s.proc 1).sent[n]? = some y →
    x.stage = y.stage ∧ x.len = y.len
  addrs : ∀ r i addrs, (s.mem r i).addrs = some addrs → addrs = fun q => E.name q i
  rbufDescs : ∀ r i descs, (s.mem r i).rbufDescs = some descs → descs = fun q => E.bufDesc q i

variable {N : ℕ} {s : JobState E}

theorem keeps_job (hagree : E.AgreeBelow N) (hs : JobReachable E s) :
    Keeps E.view (E.contract N) (fun r e _ _ => e ≤ N → e = (E.calls r).length) s :=
  keeps_of_reachable (obeys_main hagree) hs

theorem agreeBelow_of (h : ∀ e < N, ∀ a b : Stage,
    (E.calls 0)[e]? = some a → (E.calls 1)[e]? = some b → a = b) : E.AgreeBelow N := by
  intro e he
  simp only [Fin.forall_fin_two]
  refine ⟨⟨fun s s' hs hs' => ?_, h e he⟩, ⟨fun s s' hs hs' => (h e he s' s hs' hs).symm,
    fun s s' hs hs' => ?_⟩⟩
  · exact Option.some.inj (hs.symm.trans hs')
  · exact Option.some.inj (hs.symm.trans hs')

theorem Compatible.agreeBelow (h : Compatible (E.calls 0) (E.calls 1)) (N : ℕ) :
    E.AgreeBelow N := agreeBelow_of fun e _ => h e

theorem aligned_of_compatible (h : Compatible (E.calls 0) (E.calls 1)) (hs : JobReachable E s) :
    Aligned E s := by
  have hcut (r : Fin 2) : (s.proc r).epoch ≤ (s.proc 0).sent.length + (s.proc 1).sent.length := by
    have := (keeps_job (h.agreeBelow 0) hs).behind r 0
    omega
  have hk := keeps_job (h.agreeBelow ((s.proc 0).sent.length + (s.proc 1).sent.length)) hs
  refine ⟨fun n x y hx hy => ?_, fun r => ?_, fun r => ?_⟩
  · have hlt := length_of_getElem? hx
    obtain ⟨a, ha, rfl⟩ := Option.map_eq_some_iff.mp (hk.brings 0 n x hx (by omega))
    obtain ⟨b, hb, rfl⟩ := Option.map_eq_some_iff.mp (hk.brings 1 n y hy (by omega))
    obtain rfl := h n a b ha hb
    exact ⟨rfl, rfl⟩
  · exact ((hk.holds r) (hcut r)).addrs
  · exact ((hk.holds r) (hcut r)).rbufDescs

/-- An operation that does not stop the rank can be performed. -/
theorem exists_perform {r : Fin 2} {e : ℕ} {o : Op} (mem : Fin 2 → ThreadMem)
    (hgoes : E.Goes r (mem r) o) : ∃ x mem', E.machine.perform r e o mem x mem' := by
  cases o with
  | fi i call => exact ⟨_, _, rfl, rfl⟩
  | fiClose o => exact ⟨(), _, rfl⟩
  | storeAddrs i addrs => exact ⟨(), _, rfl⟩
  | setBufs i => exact ⟨(), _, rfl⟩
  | storeDescs i descs => exact ⟨(), _, rfl⟩
  | readMr i mr => exact ⟨_, _, rfl, rfl⟩
  | touchBufs i => exact ⟨(), _, hgoes, rfl⟩
  | runThreads size => exact ⟨(), _, hgoes, rfl⟩
  | abort => exact hgoes.elim

/-- Where the lists differ for the first time, some run enters both calls. -/
theorem exists_misaligned (hagree : E.AgreeBelow N) {a b : Stage}
    (ha : (E.calls 0)[N]? = some a) (hb : (E.calls 1)[N]? = some b) :
    ∃ s, JobReachable E s ∧ ∃ x y, (s.proc 0).sent[N]? = some x ∧ (s.proc 1).sent[N]? = some y ∧
      x.stage = a ∧ y.stage = b := by
  obtain ⟨s, hs, hfinal⟩ := exists_final (m := E.machine) (fun _ _ => id)
    (start (fun _ _ => {}) (main E))
  have hk := keeps_job (s := s) hagree hs
  have hlong (r : Fin 2) : N < (E.calls r).length := by
    fin_cases r
    · exact (List.getElem?_eq_some_iff.mp ha).1
    · exact (List.getElem?_eq_some_iff.mp hb).1
  have hsent := hfinal.le_sent hk.toPaced (N := N + 1) fun r hr => by
    have hlt := hlong r
    cases hcode : (s.proc r).code with
    | pure u =>
      have := hk.outcome hcode (by omega)
      omega
    | op o next =>
      rcases hk.may hcode (by omega) with hgoes | hend
      · obtain ⟨x, mem', hperform⟩ := exists_perform s.mem hgoes
        exact absurd hperform (hfinal.not_op hcode x mem')
      · omega
    | sync x next => exact ⟨x, next, rfl⟩
  obtain ⟨x, hx⟩ : ∃ x, (s.proc 0).sent[N]? = some x := ⟨_, List.getElem?_eq_getElem (hsent 0)⟩
  obtain ⟨y, hy⟩ : ∃ y, (s.proc 1).sent[N]? = some y := ⟨_, List.getElem?_eq_getElem (hsent 1)⟩
  refine ⟨s, hs, x, y, hx, hy, ?_, ?_⟩
  · have := hk.brings 0 N x hx le_rfl
    rw [ha] at this
    rw [← Option.some.inj this]
    rfl
  · have := hk.brings 1 N y hy le_rfl
    rw [hb] at this
    rw [← Option.some.inj this]
    rfl

theorem compatible_of_aligned (h : ∀ s, JobReachable E s → Aligned E s) :
    Compatible (E.calls 0) (E.calls 1) := by
  intro n
  induction n using Nat.strong_induction_on with
  | _ n ih =>
    intro a b ha hb
    obtain ⟨s, hs, x, y, hx, hy, rfl, rfl⟩ := exists_misaligned (agreeBelow_of ih) ha hb
    exact ((h s hs).calls n x y hx hy).1

/-- Every run is aligned exactly when the failures are matched. -/
theorem aligned_iff_matched : (∀ s, JobReachable E s → Aligned E s) ↔ E.Matched :=
  ⟨fun h => compatible_calls_iff.mp (compatible_of_aligned h),
    fun h _ => aligned_of_compatible (compatible_calls_iff.mpr h)⟩

def getnameFails : Setup where
  threads := 2
  ret r i call := if r = 0 ∧ i = 0 ∧ call = .fiGetname then -22
    else if call = .fiAvInsert then 2 else 0
  addrlen := 1
  name _ i := [BitVec.ofNat 8 i]
  bufDesc _ _ := List.replicate sizeofBufDesc 0
  addrlen_lt := by norm_num
  length_name _ _ := rfl
  length_bufDesc _ _ := List.length_replicate

/-- The first exchange is one of thread 1 on rank 0 and one of thread 0 on rank 1. -/
theorem not_aligned_getnameFails :
    ¬ ∀ s, JobReachable getnameFails s → Aligned getnameFails s := by
  intro h
  have hcompatible := compatible_of_aligned h
  have := hcompatible 0 (.addrs 1) (.addrs 0) (by decide) (by decide)
  cases this

end CrayTests.RdmOneSided
