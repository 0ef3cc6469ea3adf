import CrayTests.AuthKeyTest
import CrayTests.RandomAccessErrors

/-!
# The life of a credential

What the ranks of `auth_key_test` do with the credential of rank 0, in every run, whichever calls
fail. Every rank that asks for access names the acquired credential; it is released at most once,
by rank 0, and after the uses of all ranks unless rank 0 itself was denied access. All ranks
return 0 just when nothing is denied, and the credential stays acquired just when rank 0 has access
and another rank has not.
-/

namespace CrayTests.AuthKeyTest

open CInteger RankProgram

variable {n : ℕ} {E : Setup n} {r : Fin n} {e : ℕ}

def Setup.credential (E : Setup n) : ℤ := E.acquired.getD 0

def Setup.sendAbort (E : Setup n) (r : Fin n) : ℤ := if E.allocates r then 0 else 1

def Setup.Aborts (E : Setup n) : Prop := ∃ r, E.allocates r = false

instance (E : Setup n) : Decidable E.Aborts :=
  inferInstanceAs (Decidable (∃ r, E.allocates r = false))

def Setup.gathered (E : Setup n) (e : ℕ) (r : Fin n) : Exchange :=
  match e with
  | 0 => .bcast (if r = E.head then E.credential else E.stack r)
  | 1 => .allgather (E.address r)
  | 4 => .allgather (E.sendAbort r)
  | 8 => if E.Aborts then .barrier else .allgather (E.tableKey r)
  | 10 => .allgather (E.tableAddr r)
  | _ => .barrier

def Setup.oracle (E : Setup n) : Oracle (authInterface n) n := ⟨E.answer, E.gathered⟩

def openCalls (n : ℕ) : List (Call n) :=
  [.fiOpen .fab, .fiOpen .dom] ++ ([.fiOpen .av] ++ (List.finRange n).flatMap initEndpoint)

def closeCalls (n : ℕ) : List (Call n) :=
  (List.finRange n).flatMap (fun i => freeEpRes i ++ [.fiClose (.ep i)]) ++
    [.fiClose .av, .fiClose .dom, .fiClose .fab]

def Setup.release (E : Setup n) (r : Fin n) : List (Call n) :=
  if r = E.head then [.drcRelease E.credential] else []

def Setup.accessOps (E : Setup n) (r : Fin n) (key : ℕ) : List (ℕ × Call n) :=
  (3, .callocTable) ::
    if E.Aborts then inEpoch 7 (if E.allocates r then [.freeTable] else [])
    else inEpoch 7 [.fiMrRegattr .table none, .fiMrRegattr .authKey (some key)] ++
      inEpoch 14 [.fiCloseMr .table, .fiCloseMr .authKey]

/-- The epoch in which a rank closes its objects. -/
def Setup.lastUse (E : Setup n) : ℕ := if E.Aborts then 8 else 16

def Setup.keyOps (E : Setup n) (r : Fin n) (key : ℕ) : List (ℕ × Call n) :=
  inEpoch 1 (openCalls n) ++ (E.accessOps r key ++ inEpoch E.lastUse (closeCalls n ++ E.release r))

def Setup.sharedOps (E : Setup n) (r : Fin n) : List (ℕ × Call n) :=
  (1, .drcAccess E.credential) ::
    match E.cookie r with
    | none => inEpoch 1 (E.release r)
    | some key => E.keyOps r key

def Setup.ops (E : Setup n) (r : Fin n) : List (ℕ × Call n) :=
  if r = E.head then
    (0, .drcAcquire) :: match E.acquired with
      | none => []
      | some _ => E.sharedOps r
  else E.sharedOps r

def Setup.status (E : Setup n) (r : Fin n) : ℤ :=
  if r = E.head ∧ E.acquired = none ∨ E.cookie r = none then -1 else 0

def Setup.calls (E : Setup n) (r : Fin n) : ℕ :=
  if r = E.head ∧ E.acquired = none then 0
  else if E.cookie r = none then 1
  else E.lastUse + 1

abbrev Setup.Conforms {α : Type} (E : Setup n) (r : Fin n) (e : ℕ) (p : Rank n α)
    (ops : List (ℕ × Call n)) (a : α) (e' : ℕ) : Prop :=
  RankProgram.Conforms E.oracle r e p ops a e'

theorem conforms_call (o : Call n) : E.Conforms r e (call o) [(e, o)] (E.answer r o) e :=
  .op (.pure _)

theorem conforms_callAll (os : List (Call n)) : E.Conforms r e (callAll os) (inEpoch e os) () e := by
  induction os with
  | nil => exact .pure ()
  | cons o os ih => exact (conforms_call o).bind ih

theorem conforms_ctpmBarrier (h : E.gathered e r = .barrier) :
    E.Conforms r e ctpmBarrier [] () (e + 1) := .sync h.symm (.pure ())

theorem conforms_ctpmAllgather {val : ℤ} (h : E.gathered e r = .allgather val) :
    E.Conforms r e (ctpmAllgather val) [] (fun q => (E.gathered e q).val) (e + 1) :=
  .sync h.symm (.pure _)

theorem sendAbort_nonneg (E : Setup n) (r : Fin n) : 0 ≤ E.sendAbort r := by
  unfold Setup.sendAbort
  split_ifs <;> decide

theorem sendAbort_le (E : Setup n) (r : Fin n) : E.sendAbort r ≤ 1 := by
  unfold Setup.sendAbort
  split_ifs <;> decide

/-- The sum of the flags is positive just when a rank has failed. -/
theorem conforms_ctAllreduceIntSum : ∃ recvAbort : ℤ, (recvAbort > 0 ↔ E.Aborts) ∧
    E.Conforms r 4 (ctAllreduceIntSum (E.sendAbort r)) [] recvAbort 6 := by
  let valAt : ℕ → ℤ := fun i => if h : i < n then E.sendAbort ⟨i, h⟩ else 0
  have hsum : ∑ i ∈ Finset.range n, valAt i = ∑ q, E.sendAbort q := by
    rw [Finset.sum_range]
    simp [valAt]
  have hbound : ∑ q, E.sendAbort q ≤ n := by
    have := Finset.sum_le_card_nsmul Finset.univ E.sendAbort 1 fun q _ => sendAbort_le E q
    simpa using this
  have hn : n - 1 + 1 = n := Nat.sub_add_cancel E.ranks_pos
  have hfold : (List.range (n - 1)).foldl (fun ret i => int32 (ret + valAt (i + 1))) (valAt 0) =
      ∑ q, E.sendAbort q := by
    have hint := E.ranks_int
    rw [← hsum]
    have hpos (i : ℕ) : 0 ≤ valAt i := by
      simp only [valAt]
      split_ifs
      · exact sendAbort_nonneg E _
      · exact le_rfl
    have hwrap (x : ℤ) (hx : 0 ≤ x) (hlt : x < 2 ^ 31) : int32 x = x :=
      int32_eq_self (by omega) hlt
    have hfold := RandomAccess.foldl_wrap_sum hwrap (n - 1) hpos (by rw [hn, hsum]; omega)
    rwa [hn] at hfold
  refine ⟨∑ q, E.sendAbort q, ?_, ?_⟩
  · rw [gt_iff_lt, Finset.sum_pos_iff_of_nonneg fun q _ => sendAbort_nonneg E q]
    simp only [Finset.mem_univ, true_and, Setup.Aborts]
    apply exists_congr
    intro q
    unfold Setup.sendAbort
    cases E.allocates q <;> simp
  · rw [← hfold]
    apply (conforms_ctpmAllgather rfl).silent
    apply (conforms_ctpmBarrier rfl).silent
    exact .pure _

theorem conforms_randomAccess (key : ℕ) : ∃ a, E.Conforms r 3 (randomAccess E r key)
    (E.accessOps r key) a (if E.Aborts then 7 else 15) := by
  obtain ⟨recvAbort, hiff, hreduce⟩ := conforms_ctAllreduceIntSum (E := E) (r := r)
  have hflag : (if (!E.allocates r) = true then 1 else 0 : ℤ) = E.sendAbort r := by
    unfold Setup.sendAbort
    cases E.allocates r <;> rfl
  suffices h : ∃ a, E.Conforms r 7 (if recvAbort > 0 then (do
      if E.allocates r then callAll [.freeTable]
      pure (-1) : Rank n ℤ)
    else do
      callAll [.fiMrRegattr .table none, .fiMrRegattr .authKey (some key)]
      exchangeRegistrationData E r
      callAll [.fiCloseMr .table, .fiCloseMr .authKey]
      ctpmBarrier
      pure 0) (if E.Aborts then inEpoch 7 (if E.allocates r then [.freeTable] else [])
    else inEpoch 7 [.fiMrRegattr .table none, .fiMrRegattr .authKey (some key)] ++
      inEpoch 14 [.fiCloseMr .table, .fiCloseMr .authKey]) a (if E.Aborts then 7 else 15) by
    obtain ⟨a, h⟩ := h
    refine ⟨a, (conforms_call .callocTable).bind ?_⟩
    apply (conforms_ctpmBarrier rfl).bind
    change E.Conforms r 4 (Program.bind (ctAllreduceIntSum
      (if (!E.allocates r) = true then 1 else 0 : ℤ)) _) _ _ _
    rw [hflag]
    apply hreduce.bind
    exact (conforms_ctpmBarrier rfl).bind h
  by_cases habort : E.Aborts
  · rw [if_pos (hiff.mpr habort), if_pos habort, if_pos habort]
    refine ⟨-1, ?_⟩
    cases E.allocates r with
    | true => exact (conforms_callAll [.freeTable]).bind (.pure _)
    | false => exact .pure _
  · rw [if_neg (mt hiff.mp habort), if_neg habort, if_neg habort]
    have height : E.gathered 8 r = .allgather (E.tableKey r) := if_neg habort
    have hexchange : E.Conforms r 7 (exchangeRegistrationData E r) [] () 14 := by
      apply (conforms_ctpmBarrier rfl).silent
      apply (conforms_ctpmAllgather height).silent
      apply (conforms_ctpmBarrier rfl).silent
      apply (conforms_ctpmAllgather rfl).silent
      apply (conforms_ctpmBarrier rfl).silent
      apply (conforms_ctpmBarrier rfl).silent
      exact conforms_ctpmBarrier rfl
    refine ⟨0, (conforms_callAll _).bind ?_⟩
    apply hexchange.bind
    refine RankProgram.Conforms.congr (List.append_nil _) ((conforms_callAll _).bind ?_)
    exact (conforms_ctpmBarrier rfl).bind (.pure 0)

theorem conforms_initGnixProv : E.Conforms r 1 (initGnixProv E r) (inEpoch 1 (openCalls n)) () 2 := by
  unfold openCalls inEpoch
  rw [List.map_append, List.map_append]
  apply (conforms_callAll _).bind
  apply (conforms_callAll _).bind
  refine RankProgram.Conforms.congr (List.append_nil _) ((conforms_callAll _).bind ?_)
  exact (conforms_ctpmAllgather rfl).bind (.pure ())

theorem conforms_finiGnixProv :
    E.Conforms r e finiGnixProv (inEpoch e (closeCalls n)) () e := by
  unfold closeCalls inEpoch
  rw [List.map_append]
  exact (conforms_callAll _).bind (conforms_callAll _)

theorem conforms_headRelease :
    E.Conforms r e (headRelease E r E.credential) (inEpoch e (E.release r)) () e := by
  unfold headRelease Setup.release
  split_ifs
  · exact conforms_callAll _
  · exact .pure ()

theorem conforms_useKey (key : ℕ) : E.Conforms r 1 (useKey E r E.credential key)
    (E.keyOps r key) 0 (E.lastUse + 1) := by
  obtain ⟨a, haccess⟩ := conforms_randomAccess (E := E) (r := r) key
  have hbefore : (if E.Aborts then 7 else 15) + 1 = E.lastUse := by
    unfold Setup.lastUse
    split_ifs <;> rfl
  have hbarrier : E.gathered (if E.Aborts then 7 else 15) r = .barrier := by
    split_ifs <;> rfl
  have hlast : E.gathered E.lastUse r = .barrier := by
    unfold Setup.lastUse
    split_ifs with habort
    · exact if_pos habort
    · rfl
  apply conforms_initGnixProv.bind
  apply (conforms_ctpmBarrier rfl).silent
  apply haccess.bind
  apply (conforms_ctpmBarrier hbarrier).silent
  rw [hbefore, inEpoch, List.map_append]
  apply conforms_finiGnixProv.bind
  refine RankProgram.Conforms.congr (List.append_nil _) (conforms_headRelease.bind ?_)
  exact (conforms_ctpmBarrier hlast).bind (.pure 0)

theorem conforms_shareKey {credential : ℤ}
    (hcred : credential = if r = E.head then E.credential else E.stack r) :
    E.Conforms r 0 (shareKey E r credential) (E.sharedOps r)
      (if E.cookie r = none then -1 else 0)
      (if E.cookie r = none then 1 else E.lastUse + 1) := by
  have hbcast : E.Conforms r 0 (ctpmBcast E credential) [] E.credential 1 := by
    refine .sync (congrArg Exchange.bcast hcred) ?_
    have hhead : (E.gathered 0 E.head).val = E.credential := by simp [Setup.gathered, Exchange.val]
    change E.Conforms r 1 (.pure (E.gathered 0 E.head).val) _ _ _
    rw [hhead]
    exact .pure _
  have haccess : E.Conforms r 1 (call (.drcAccess E.credential)) [(1, .drcAccess E.credential)]
      (E.cookie r) 1 := conforms_call _
  apply hbcast.silent
  apply haccess.bind
  cases E.cookie r with
  | none => exact .congr (List.append_nil _) (conforms_headRelease.bind (.pure (-1)))
  | some key => exact conforms_useKey key

theorem conforms_main (E : Setup n) (r : Fin n) :
    E.Conforms r 0 (main E r) (E.ops r) (E.status r) (E.calls r) := by
  unfold main Setup.ops Setup.status Setup.calls
  by_cases hr : r = E.head
  · rw [if_pos hr, if_pos hr]
    have hacquire : E.Conforms r 0 (call .drcAcquire) [(0, .drcAcquire)] E.acquired 0 :=
      conforms_call _
    apply hacquire.bind
    cases hacq : E.acquired with
    | none => simpa [hr] using RankProgram.Conforms.pure (-1)
    | some credential =>
      have hcred : credential = if r = E.head then E.credential else E.stack r := by
        simp [hr, Setup.credential, hacq]
      simpa using conforms_shareKey hcred
  · have hcred : E.stack r = if r = E.head then E.credential else E.stack r := (if_neg hr).symm
    simpa [hr] using conforms_shareKey hcred

def Call.isRelease : Call n → Bool
  | .drcRelease _ => true
  | _ => false

def Call.usesKey : Call n → Bool
  | .drcAccess _ => true
  | .fiMrRegattr _ (some _) => true
  | .fiCloseMr .authKey => true
  | _ => false

theorem mem_openCalls {o : Call n} (h : o ∈ openCalls n) : ∃ obj, o = .fiOpen obj := by
  simp only [openCalls, initEndpoint, List.mem_append, List.mem_cons, List.not_mem_nil, or_false,
    List.mem_flatMap] at h
  rcases h with (rfl | rfl) | rfl | ⟨i, -, rfl | rfl | rfl⟩ <;> exact ⟨_, rfl⟩

theorem mem_closeCalls {o : Call n} (h : o ∈ closeCalls n) : ∃ obj, o = .fiClose obj := by
  simp only [closeCalls, freeEpRes, List.mem_append, List.mem_cons, List.not_mem_nil, or_false,
    List.mem_flatMap] at h
  rcases h with ⟨i, -, (rfl | rfl) | rfl⟩ | rfl | rfl | rfl <;> exact ⟨_, rfl⟩

theorem mem_release {o : Call n} (h : o ∈ E.release r) :
    r = E.head ∧ o = .drcRelease E.credential := by
  unfold Setup.release at h
  split_ifs at h with hr
  · exact ⟨hr, List.mem_singleton.mp h⟩
  · cases h

theorem mem_accessOps {key : ℕ} {o : Call n} (h : (e, o) ∈ E.accessOps r key) :
    o.isRelease = false ∧ (o.usesKey = true → ¬ E.Aborts ∧
      (e = 7 ∧ o = .fiMrRegattr .authKey (some key) ∨ e = 14 ∧ o = .fiCloseMr .authKey)) := by
  unfold Setup.accessOps at h
  by_cases habort : E.Aborts
  · rw [if_pos habort] at h
    split_ifs at h
    · simp only [List.map_cons, List.map_nil, List.mem_cons, Prod.mk.injEq, List.not_mem_nil,
        or_false] at h
      rcases h with ⟨rfl, rfl⟩ | ⟨rfl, rfl⟩ <;> exact ⟨rfl, nofun⟩
    · simp only [List.map_nil, List.mem_singleton, Prod.mk.injEq] at h
      obtain ⟨rfl, rfl⟩ := h
      exact ⟨rfl, nofun⟩
  · rw [if_neg habort] at h
    simp only [List.map_cons, List.map_nil, List.mem_append, List.mem_cons, Prod.mk.injEq,
      List.not_mem_nil, or_false] at h
    rcases h with ⟨rfl, rfl⟩ | (⟨rfl, rfl⟩ | ⟨rfl, rfl⟩) | ⟨rfl, rfl⟩ | ⟨rfl, rfl⟩
    · exact ⟨rfl, nofun⟩
    · exact ⟨rfl, nofun⟩
    · exact ⟨rfl, fun _ => ⟨habort, .inl ⟨rfl, rfl⟩⟩⟩
    · exact ⟨rfl, nofun⟩
    · exact ⟨rfl, fun _ => ⟨habort, .inr ⟨rfl, rfl⟩⟩⟩

/-- When and how a rank that has got the credential uses and releases it. -/
theorem mem_sharedOps {o : Call n} (h : (e, o) ∈ E.sharedOps r) :
    (o.usesKey = true → e = 1 ∧ o = .drcAccess E.credential ∨ ¬ E.Aborts ∧ ∃ key,
      E.cookie r = some key ∧ (e = 7 ∧ o = .fiMrRegattr .authKey (some key) ∨
        e = 14 ∧ o = .fiCloseMr .authKey)) ∧
      (o.isRelease = true → r = E.head ∧ o = .drcRelease E.credential ∧
        e = if E.cookie r = none then 1 else E.lastUse) := by
  unfold Setup.sharedOps at h
  rcases List.mem_cons.mp h with heq | h
  · obtain ⟨rfl, rfl⟩ := Prod.mk.inj heq
    exact ⟨fun _ => .inl ⟨rfl, rfl⟩, nofun⟩
  · cases hcookie : E.cookie r with
    | none =>
      rw [hcookie] at h
      obtain ⟨o', ho', heq⟩ := List.mem_map.mp h
      obtain ⟨rfl, rfl⟩ := Prod.mk.inj heq
      obtain ⟨hr, rfl⟩ := mem_release ho'
      exact ⟨nofun, fun _ => ⟨hr, rfl, rfl⟩⟩
    | some key =>
      rw [hcookie] at h
      unfold Setup.keyOps at h
      rcases List.mem_append.mp h with h | h
      · obtain ⟨o', ho', heq⟩ := List.mem_map.mp h
        obtain ⟨rfl, rfl⟩ := Prod.mk.inj heq
        obtain ⟨obj, rfl⟩ := mem_openCalls ho'
        exact ⟨nofun, nofun⟩
      · rcases List.mem_append.mp h with h | h
        · obtain ⟨hrelease, huses⟩ := mem_accessOps h
          refine ⟨fun hu => .inr ⟨(huses hu).1, key, rfl, (huses hu).2⟩, fun hr => ?_⟩
          rw [hrelease] at hr
          cases hr
        · obtain ⟨o', ho', heq⟩ := List.mem_map.mp h
          obtain ⟨rfl, rfl⟩ := Prod.mk.inj heq
          rcases List.mem_append.mp ho' with ho' | ho'
          · obtain ⟨obj, rfl⟩ := mem_closeCalls ho'
            exact ⟨nofun, nofun⟩
          · obtain ⟨hr, rfl⟩ := mem_release ho'
            exact ⟨nofun, fun _ => ⟨hr, rfl, rfl⟩⟩

/-- The rank gets to the broadcast. -/
def Setup.Shares (E : Setup n) (r : Fin n) : Prop := r = E.head → E.acquired ≠ none

theorem ops_of_shares (h : E.Shares r) :
    E.ops r = (if r = E.head then [(0, .drcAcquire)] else []) ++ E.sharedOps r := by
  unfold Setup.ops
  by_cases hr : r = E.head
  · obtain ⟨c, hc⟩ := Option.ne_none_iff_exists'.mp (h hr)
    simp [hr, hc]
  · simp [hr]

/-- An operation other than `drc_acquire` is one after the broadcast. -/
theorem mem_ops {o : Call n} (h : (e, o) ∈ E.ops r) (ho : o ≠ .drcAcquire) :
    E.Shares r ∧ (e, o) ∈ E.sharedOps r := by
  by_cases hshares : E.Shares r
  · rw [ops_of_shares hshares] at h
    refine ⟨hshares, (List.mem_append.mp h).resolve_left fun hfirst => ho ?_⟩
    split_ifs at hfirst
    · exact (Prod.mk.inj (List.mem_singleton.mp hfirst)).2
    · cases hfirst
  · simp only [Setup.Shares, Classical.not_imp, not_not] at hshares
    obtain ⟨hr, hacq⟩ := hshares
    simp only [Setup.ops, hr, hacq, if_true, List.mem_singleton, Prod.mk.injEq] at h
    exact absurd h.2 ho

theorem access_mem_ops (h : E.Shares r) : (1, .drcAccess E.credential) ∈ E.ops r := by
  rw [ops_of_shares h]
  exact List.mem_append_right _ List.mem_cons_self

theorem close_mem_ops (h : E.Shares r) {key : ℕ} (hcookie : E.cookie r = some key)
    (habort : ¬ E.Aborts) : (14, .fiCloseMr .authKey) ∈ E.ops r := by
  rw [ops_of_shares h]
  apply List.mem_append_right
  simp [Setup.sharedOps, hcookie, Setup.keyOps, Setup.accessOps, habort]

theorem release_mem_ops (h : E.acquired ≠ none) :
    (if E.cookie E.head = none then 1 else E.lastUse, .drcRelease E.credential) ∈
      E.ops E.head := by
  rw [ops_of_shares fun _ => h]
  apply List.mem_append_right
  cases hcookie : E.cookie E.head with
  | none => simp [Setup.sharedOps, hcookie, Setup.release]
  | some key => simp [Setup.sharedOps, hcookie, Setup.keyOps, Setup.release]

theorem countP_release (E : Setup n) (r : Fin n) :
    (E.ops r).countP (fun x => x.2.isRelease) ≤ if r = E.head then 1 else 0 := by
  have hrelease : ∀ d, (inEpoch d (E.release r)).countP (fun x => x.2.isRelease) =
      if r = E.head then 1 else 0 := by
    intro d
    unfold Setup.release
    split_ifs <;> rfl
  have hopen (os : List (Call n)) (d : ℕ) (h : ∀ o ∈ os, o.isRelease = false) :
      (inEpoch d os).countP (fun x => x.2.isRelease) = 0 := by
    rw [List.countP_eq_zero]
    rintro ⟨e, o⟩ hmem
    obtain ⟨o', ho', heq⟩ := List.mem_map.mp hmem
    obtain ⟨rfl, rfl⟩ := Prod.mk.inj heq
    simp [h o' ho']
  have haccess (key : ℕ) : (E.accessOps r key).countP (fun x => x.2.isRelease) = 0 := by
    rw [List.countP_eq_zero]
    rintro ⟨e, o⟩ hmem
    simp [(mem_accessOps hmem).1]
  have hshared : (E.sharedOps r).countP (fun x => x.2.isRelease) =
      if r = E.head then 1 else 0 := by
    unfold Setup.sharedOps
    rw [List.countP_cons_of_neg (by simp [Call.isRelease])]
    cases E.cookie r with
    | none => exact hrelease 1
    | some key =>
      simp only [Setup.keyOps, List.countP_append, List.map_append, haccess, hrelease]
      rw [hopen (openCalls n) 1 fun o ho => by obtain ⟨_, rfl⟩ := mem_openCalls ho; rfl,
        hopen (closeCalls n) E.lastUse fun o ho => by obtain ⟨_, rfl⟩ := mem_closeCalls ho; rfl,
        Nat.zero_add, Nat.zero_add, Nat.zero_add]
  by_cases hshares : E.Shares r
  · rw [ops_of_shares hshares, List.countP_append, hshared]
    split_ifs <;> simp [Call.isRelease]
  · rw [List.countP_eq_zero.mpr]
    · exact Nat.zero_le _
    · rintro ⟨e, o⟩ hmem hrel
      refine hshares (mem_ops hmem ?_).1
      rintro rfl
      cases hrel

abbrev AuthState (E : Setup n) := State (recorder (I := authInterface n) E.answer) ℤ

abbrev AuthEntry (n : ℕ) := Entry (authInterface n) n

abbrev AuthReachable (E : Setup n) (s : AuthState E) : Prop :=
  Reachable (m := recorder (I := authInterface n) E.answer) [] (main E) s

/-- The life of the credential. `covered` says what precedes and what does not follow a release when
rank 0 has access; `ended` and `leaked` are about the states in which no step is left. -/
structure CredentialProtocol (E : Setup n) (s : AuthState E) : Prop where
  named : ∀ r e c, ⟨r, e, .drcAccess c⟩ ∈ s.mem → E.acquired = some c
  released : ∀ r e c, ⟨r, e, .drcRelease c⟩ ∈ s.mem → r = E.head ∧ E.acquired = some c
  once : s.mem.countP (fun x => Call.isRelease x.op) ≤ 1
  covered : E.cookie E.head ≠ none → ∀ (pre : List (AuthEntry n)) x post, s.mem = pre ++ x :: post →
    Call.isRelease x.op = true → (∀ r, ⟨r, 1, .drcAccess E.credential⟩ ∈ pre) ∧
      (∀ r e key, ⟨r, e, .fiMrRegattr .authKey (some key)⟩ ∈ s.mem →
        ⟨r, 14, .fiCloseMr .authKey⟩ ∈ pre) ∧
      ∀ y ∈ post, Call.usesKey y.op = false
  ended : Final s → ((∀ r, (s.proc r).code = .pure 0) ↔
    E.acquired ≠ none ∧ ∀ r, E.cookie r ≠ none)
  leaked : Final s → ((E.acquired ≠ none ∧ ∀ x ∈ s.mem, Call.isRelease x.op = false) ↔
    E.acquired ≠ none ∧ E.cookie E.head ≠ none ∧ ∃ r, E.cookie r = none)
  ends : ∃ s', Relation.ReflTransGen Step s s' ∧ Final s'

theorem coherent_main (E : Setup n) : Coherent E.oracle (main E) :=
  coherent_of_conforms (conforms_main E)

def Setup.limit (E : Setup n) : ℕ :=
  if E.acquired = none then 0 else if ∃ r, E.cookie r = none then 1 else E.lastUse + 1

theorem limit_le (E : Setup n) (r : Fin n) : E.limit ≤ E.calls r := by
  unfold Setup.limit Setup.calls
  by_cases hacq : E.acquired = none
  · simp [hacq]
  · by_cases hdenied : ∃ r, E.cookie r = none
    · simp only [hacq, hdenied, and_false, if_true, if_false]
      split_ifs
      · exact le_rfl
      · exact Nat.le_add_left 1 _
    · have hr : E.cookie r ≠ none := fun h => hdenied ⟨r, h⟩
      simp [hacq, hdenied, hr]

theorem exists_limit (E : Setup n) : ∃ r, E.calls r = E.limit := by
  unfold Setup.limit Setup.calls
  by_cases hacq : E.acquired = none
  · exact ⟨E.head, by simp [hacq]⟩
  · by_cases hdenied : ∃ r, E.cookie r = none
    · obtain ⟨r, hr⟩ := hdenied
      exact ⟨r, by simp [hacq, hr, show ∃ r, E.cookie r = none from ⟨r, hr⟩]⟩
    · have hhead : E.cookie E.head ≠ none := fun h => hdenied ⟨_, h⟩
      exact ⟨E.head, by simp [hacq, hdenied, hhead]⟩

section Reachable

variable {s : AuthState E}

theorem follows_main (hs : AuthReachable E s) : Follows E.oracle (main E) s :=
  recorder_follows (coherent_main E) rfl hs

theorem recorded_main (hs : AuthReachable E s) : Recorded s :=
  recorded_of_reachable (coherent_main E) rfl hs

theorem mem_ops_of_mem (hs : AuthReachable E s) {o : Call n} (h : ⟨r, e, o⟩ ∈ s.mem) :
    (e, o) ∈ E.ops r := by
  have hmem := (recorded_main hs).mem_trace (follows_main hs) h
  rwa [(conforms_main E r).ops_eq] at hmem

/-- Where anything happens after the broadcast, the credential is acquired. -/
theorem acquired_of_mem (hs : AuthReachable E s) {o : Call n} (h : ⟨r, e, o⟩ ∈ s.mem)
    (he : 1 ≤ e) : E.acquired ≠ none := by
  intro hacq
  have hf := follows_main hs
  obtain ⟨x, hdone⟩ := mem_opsIn.mp ((recorded_main hs).mem_log.mp h)
  have hpast := hf.past r e _ hdone
  have hsent := hf.length_sent_le E.head
  have hcalls : E.calls E.head = 0 := if_pos ⟨rfl, hacq⟩
  rw [(conforms_main E E.head).lastEpoch_eq, hcalls] at hsent
  have := hf.behind r E.head
  omega

theorem acquired_eq (h : E.acquired ≠ none) : E.acquired = some E.credential := by
  obtain ⟨c, hc⟩ := Option.ne_none_iff_exists'.mp h
  simp [Setup.credential, hc]

theorem lastUse_pos (E : Setup n) : 1 < E.lastUse := by
  unfold Setup.lastUse
  split_ifs <;> decide

/-- A release in the log is the release of the trace of rank 0. -/
theorem release_of_mem (hs : AuthReachable E s) {o : Call n} (h : ⟨r, e, o⟩ ∈ s.mem)
    (ho : o.isRelease = true) : r = E.head ∧ o = .drcRelease E.credential ∧
      e = (if E.cookie r = none then 1 else E.lastUse) ∧ E.acquired ≠ none := by
  have hne : o ≠ .drcAcquire := by
    rintro rfl
    cases ho
  obtain ⟨hr, ho, he⟩ := (mem_sharedOps (mem_ops (mem_ops_of_mem hs h) hne).2).2 ho
  refine ⟨hr, ho, he, acquired_of_mem hs h ?_⟩
  have := lastUse_pos E
  split_ifs at he <;> omega

theorem covered_of_reachable (hs : AuthReachable E s) (hhead : E.cookie E.head ≠ none)
    {pre post : List (AuthEntry n)} {x : AuthEntry n}
    (hlog : s.mem = pre ++ x :: post) (hx : Call.isRelease x.op = true) :
    (∀ r, ⟨r, 1, .drcAccess E.credential⟩ ∈ pre) ∧
      (∀ r e key, ⟨r, e, .fiMrRegattr .authKey (some key)⟩ ∈ s.mem →
        ⟨r, 14, .fiCloseMr .authKey⟩ ∈ pre) ∧
      ∀ y ∈ post, Call.usesKey y.op = false := by
  have hf := follows_main hs
  have hmem : x ∈ s.mem := hlog ▸ List.mem_append_right _ List.mem_cons_self
  obtain ⟨hr, -, hepoch, hacq⟩ := release_of_mem hs (o := x.op) hmem hx
  rw [hr, if_neg hhead] at hepoch
  have hshares (r : Fin n) : E.Shares r := fun _ => hacq
  obtain ⟨hpre, hpost⟩ := (recorded_main hs).split hf hlog
  have hbefore {r : Fin n} {e : ℕ} {o : Call n} (ho : (e, o) ∈ E.ops r) (he : e < E.lastUse) :
      ⟨r, e, o⟩ ∈ pre := hpre r e o ((conforms_main E r).ops_eq ▸ ho) (hepoch ▸ he)
  -- without an abort the release comes in epoch 16
  have hlast : ¬ E.Aborts → E.lastUse = 16 := fun habort => if_neg habort
  have huses {r : Fin n} {e : ℕ} {o : Call n} (h : ⟨r, e, o⟩ ∈ s.mem) (ho : o.usesKey = true) :
      e = 1 ∧ o = .drcAccess E.credential ∨ ¬ E.Aborts ∧ ∃ key, E.cookie r = some key ∧
        (e = 7 ∧ o = .fiMrRegattr .authKey (some key) ∨ e = 14 ∧ o = .fiCloseMr .authKey) := by
    have hne : o ≠ .drcAcquire := by
      rintro rfl
      cases ho
    exact (mem_sharedOps (mem_ops (mem_ops_of_mem hs h) hne).2).1 ho
  refine ⟨fun r => hbefore (access_mem_ops (hshares r)) (lastUse_pos E), fun r e key hreg => ?_,
    fun y hy => ?_⟩
  · rcases huses hreg rfl with ⟨-, hno⟩ | ⟨habort, key', hcookie, -⟩
    · cases hno
    · exact hbefore (close_mem_ops (hshares r) hcookie habort) (by rw [hlast habort]; decide)
  · have hlater := hpost y hy
    have hin : y ∈ s.mem := hlog ▸ List.mem_append_right _ (List.mem_cons_of_mem _ hy)
    rw [Bool.eq_false_iff]
    intro hu
    have hone := lastUse_pos E
    rcases huses (r := y.rank) (e := y.epoch) (o := y.op) hin hu with
      ⟨he, -⟩ | ⟨habort, -, -, ⟨he, -⟩ | ⟨he, -⟩⟩
    · omega
    · have := hlast habort
      omega
    · have := hlast habort
      omega

section Final

variable (hs : AuthReachable E s) (hfinal : Final s)
include hs hfinal

theorem epoch_of_ended (r : Fin n) : (s.proc r).epoch = E.limit := by
  obtain ⟨q, hq⟩ := exists_limit E
  refine epoch_of_final (follows_main hs) hfinal (fun r => ?_) (q := q) ?_ r
  · rw [(conforms_main E r).lastEpoch_eq]
    exact limit_le E r
  · rw [(conforms_main E q).lastEpoch_eq, hq]

theorem ended_iff : (∀ r, (s.proc r).code = .pure 0) ↔
    E.acquired ≠ none ∧ ∀ r, E.cookie r ≠ none := by
  have hcode (r : Fin n) : (s.proc r).code = .pure 0 ↔ E.calls r = E.limit ∧ E.status r = 0 := by
    have h := (done_of_final (follows_main hs) hfinal (epoch_of_ended hs hfinal r)).2 0
    rwa [(conforms_main E r).lastEpoch_eq, (conforms_main E r).result_eq] at h
  simp only [hcode]
  constructor
  · intro h
    have hstatus (r : Fin n) : ¬ (r = E.head ∧ E.acquired = none ∨ E.cookie r = none) := by
      intro hbad
      have hr := (h r).2
      rw [Setup.status, if_pos hbad] at hr
      cases hr
    exact ⟨fun hacq => hstatus E.head (.inl ⟨rfl, hacq⟩), fun r hr => hstatus r (.inr hr)⟩
  · rintro ⟨hacq, hcookie⟩ r
    simp [Setup.calls, Setup.limit, Setup.status, hacq, hcookie]

theorem leaked_iff : (E.acquired ≠ none ∧ ∀ x ∈ s.mem, Call.isRelease x.op = false) ↔
    E.acquired ≠ none ∧ E.cookie E.head ≠ none ∧ ∃ r, E.cookie r = none := by
  refine and_congr_right fun hacq => ?_
  have hrec := recorded_main hs
  have hdone := (done_of_final (follows_main hs) hfinal (epoch_of_ended hs hfinal E.head)).1
  rw [(conforms_main E E.head).ops_eq] at hdone
  constructor
  · intro hnone
    have hlate : ¬ (if E.cookie E.head = none then 1 else E.lastUse) ≤ E.limit := by
      intro hle
      have hmem : (_, .drcRelease E.credential) ∈ opsIn (s.proc E.head).done :=
        hdone ▸ List.mem_filter.mpr ⟨release_mem_ops hacq, by simpa using hle⟩
      have := hnone _ (hrec.mem_log.mpr hmem)
      cases this
    unfold Setup.limit at hlate
    rw [if_neg hacq] at hlate
    split_ifs at hlate with hcookie hdenied hdenied
    · exact absurd le_rfl hlate
    · exact absurd ⟨_, hcookie⟩ hdenied
    · exact ⟨hcookie, hdenied⟩
    · omega
  · rintro ⟨hhead, hdenied⟩ ⟨r, e, o⟩ hx
    rw [Bool.eq_false_iff]
    intro ho
    obtain ⟨rfl, -, he, -⟩ := release_of_mem hs hx ho
    rw [if_neg hhead] at he
    have hmem := hrec.mem_log.mp hx
    rw [hdone] at hmem
    have hle : e ≤ E.limit := by simpa using (List.mem_filter.mp hmem).2
    have hlimit : E.limit = 1 := by simp [Setup.limit, hacq, hdenied]
    have := lastUse_pos E
    omega

end Final

end Reachable

/-- The credential protocol holds in every reachable state, whichever calls fail. -/
theorem main_credentialProtocol {s : AuthState E} (hs : AuthReachable E s) :
    CredentialProtocol E s where
  named r e c h := by
    have hops := mem_ops (mem_ops_of_mem hs h) nofun
    rcases (mem_sharedOps hops.2).1 rfl with ⟨rfl, hc⟩ | ⟨-, key, -, ⟨-, hno⟩ | ⟨-, hno⟩⟩
    · rw [acquired_eq (acquired_of_mem hs h le_rfl)]
      cases hc
      rfl
    · cases hno
    · cases hno
  released r e c h := by
    obtain ⟨hr, hc, -, hacq⟩ := release_of_mem hs h rfl
    refine ⟨hr, (acquired_eq hacq).trans ?_⟩
    cases hc
    rfl
  once := by
    have hrec := recorded_main hs
    have hcount := countP_entriesOf (p := Call.isRelease) fun x (hx : x ∈ s.mem) ho =>
      (release_of_mem hs (o := x.op) hx ho).1
    have hle := hrec.countP_le (follows_main hs) E.head fun x => x.2.isRelease
    rw [(conforms_main E E.head).ops_eq] at hle
    exact hcount.le.trans (hle.trans ((countP_release E E.head).trans (if_pos rfl).le))
  covered hhead _ _ _ := covered_of_reachable hs hhead
  ended := ended_iff hs
  leaked := leaked_iff hs
  ends := recorder_exists_final (coherent_main E) rfl hs

/-- Of two ranks the second is denied access, and a run ends with the credential acquired. -/
theorem main_credentialProtocol_secondDenied : ∃ (E : Setup 2) (s : AuthState E),
    E.acquired = some 7 ∧ E.cookie 0 = some 1 ∧ E.cookie 1 = none ∧ AuthReachable E s ∧ Final s ∧
      ∀ x ∈ s.mem, Call.isRelease x.op = false := by
  let E : Setup 2 := {
    acquired := some 7
    cookie := fun r => if r.val = 0 then some 1 else none
    allocates := fun _ => true
    stack := fun _ => -1
    address := fun _ => 0
    tableKey := fun _ => 0
    tableAddr := fun _ => 0
    ranks_pos := by decide
    ranks_int := by decide }
  have hstart : AuthReachable E (start [] (main E)) := .refl
  obtain ⟨s, hrun, hfinal⟩ := (main_credentialProtocol hstart).ends
  have hleaked := (main_credentialProtocol (hstart.trans hrun)).leaked hfinal
  exact ⟨E, s, rfl, rfl, rfl, hrun, hfinal, (hleaked.mpr ⟨nofun, by decide, 1, rfl⟩).2⟩

end CrayTests.AuthKeyTest
