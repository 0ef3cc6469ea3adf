import CrayTests.RdmOneSided

/-!
# Which collective calls two ranks make

The failures of a rank determine the list of its collective calls. Two lists are `Compatible` when
they do not differ at any position that both have. The lists of the two ranks are compatible exactly
when the failures are `Matched`.
-/

namespace CrayTests.RdmOneSided
open Kvs RankProgram

section Compatible

variable {α : Type} {a b l : List α} {x y : α}

def Compatible (a b : List α) : Prop :=
  ∀ (n : ℕ) (x y : α), a[n]? = some x → b[n]? = some y → x = y

theorem compatible_nil (b : List α) : Compatible [] b := by
  intro n x y h
  simp at h

theorem Compatible.symm (h : Compatible a b) : Compatible b a :=
  fun n x y hx hy => (h n y x hy hx).symm

theorem compatible_comm : Compatible a b ↔ Compatible b a := ⟨.symm, .symm⟩

theorem compatible_cons : Compatible (x :: a) (y :: b) ↔ x = y ∧ Compatible a b := by
  constructor
  · intro h
    exact ⟨h 0 x y rfl rfl, fun n x y hx hy => h (n + 1) x y hx hy⟩
  · rintro ⟨rfl, h⟩ n x' y' hx hy
    cases n with
    | zero => exact (Option.some.inj hx).symm.trans (Option.some.inj hy)
    | succ n => exact h n x' y' hx hy

theorem compatible_append : Compatible (l ++ a) (l ++ b) ↔ Compatible a b := by
  induction l with
  | nil => rfl
  | cons x l ih =>
    rw [List.cons_append, List.cons_append, compatible_cons, ih]
    exact and_iff_right rfl

theorem compatible_of_prefix (ha : a <+: l) (hb : b <+: l) : Compatible a b := by
  intro n x y hx hy
  have hpos {m : List α} {z : α} (hm : m <+: l) (h : m[n]? = some z) : l[n]? = some z := by
    obtain ⟨t, rfl⟩ := hm
    rwa [List.getElem?_append_left (List.getElem?_eq_some_iff.mp h).1]
  exact Option.some.inj ((hpos ha hx).symm.trans (hpos hb hy))

/-- A list that goes on where the other one has an element it does not contain. -/
theorem compatible_cons_iff_nil (h : y ∉ a) : Compatible a (y :: b) ↔ a = [] := by
  cases a with
  | nil => exact iff_of_true (compatible_nil _) rfl
  | cons x a =>
    rw [compatible_cons]
    refine iff_of_false ?_ (List.cons_ne_nil x a)
    rintro ⟨rfl, -⟩
    exact h List.mem_cons_self

end Compatible

variable {E : Setup} {r q : Fin 2} {i j k : ℕ}

def Setup.exchanges (E : Setup) (r : Fin 2) (i : ℕ) : ℕ := RdmOneSided.exchanges (E.ret r i)

/-- The calls of the `k` threads from `i` on, and what follows when these are the last. -/
def Setup.callsFrom (E : Setup) (r : Fin 2) (i k : ℕ) : List Stage :=
  (List.range' i k).flatMap (fun i => threadCalls (E.ret r i) i) ++ E.roundsCalls r

theorem callsFrom_succ (r : Fin 2) (i k : ℕ) :
    E.callsFrom r i (k + 1) =
      [Stage.addrs i, Stage.descs i].take (E.exchanges r i) ++ E.callsFrom r (i + 1) k := by
  rw [Setup.callsFrom, List.range'_succ, List.flatMap_cons, List.append_assoc]
  rfl

theorem calls_eq_callsFrom (r : Fin 2) : E.calls r = E.callsFrom r 0 E.threads := by
  rw [Setup.calls, List.range_eq_range']
  rfl

theorem roundsCalls_isPrefix (r : Fin 2) :
    E.roundsCalls r <+: (List.range numSizes).flatMap roundCalls ++ [Stage.last] := by
  unfold Setup.roundsCalls
  split_ifs
  · exact ⟨_, rfl⟩
  · exact List.prefix_rfl
  · exact List.nil_prefix

theorem thread_not_mem_rounds (r : Fin 2) (i : ℕ) :
    Stage.addrs i ∉ E.roundsCalls r ∧ Stage.descs i ∉ E.roundsCalls r := by
  have hnot {s : Stage} (hs : ∀ size, s ≠ .start size ∧ s ≠ .finish size) (hlast : s ≠ .last) :
      s ∉ E.roundsCalls r := by
    intro hmem
    have := (roundsCalls_isPrefix r).subset hmem
    simp only [roundCalls, List.mem_append, List.mem_flatMap, List.mem_cons, List.not_mem_nil,
      or_false] at this
    rcases this with ⟨k, -, h | h⟩ | h
    · exact (hs _).1 h
    · exact (hs _).2 h
    · exact hlast h
  exact ⟨hnot (fun _ => ⟨nofun, nofun⟩) nofun, hnot (fun _ => ⟨nofun, nofun⟩) nofun⟩

theorem thread_not_mem_callsFrom (r : Fin 2) (h : j < i) (k : ℕ) :
    Stage.addrs j ∉ E.callsFrom r i k ∧ Stage.descs j ∉ E.callsFrom r i k := by
  have hthreads {s : Stage} (hs : s = .addrs j ∨ s = .descs j) :
      s ∉ (List.range' i k).flatMap (fun i => threadCalls (E.ret r i) i) := by
    intro hmem
    obtain ⟨u, hu, hmem⟩ := List.mem_flatMap.mp hmem
    have hle := (List.mem_range'_1.mp hu).1
    have := List.mem_of_mem_take hmem
    simp only [List.mem_cons, List.not_mem_nil, or_false] at this
    rcases hs with rfl | rfl
    · rcases this with h | h <;> cases h
      omega
    · rcases this with h | h <;> cases h
      omega
  obtain ⟨haddrs, hdescs⟩ := thread_not_mem_rounds (E := E) r j
  exact ⟨fun hmem => (List.mem_append.mp hmem).elim (hthreads (.inl rfl)) haddrs,
    fun hmem => (List.mem_append.mp hmem).elim (hthreads (.inr rfl)) hdescs⟩

theorem exchanges_le (r : Fin 2) (i : ℕ) : E.exchanges r i ≤ 2 := by
  unfold Setup.exchanges RdmOneSided.exchanges
  split_ifs <;> omega

/-- The rank that makes fewer calls for thread `i` must not make another one. -/
theorem compatible_callsFrom_of_lt (h : E.exchanges r i < E.exchanges q i) (k : ℕ) :
    Compatible (E.callsFrom r i (k + 1)) (E.callsFrom q i (k + 1)) ↔
      E.callsFrom r (i + 1) k = [] := by
  obtain ⟨haddrs, hdescs⟩ := thread_not_mem_callsFrom (E := E) r (Nat.lt_succ_self i) k
  have hle := exchanges_le (E := E) q i
  rw [callsFrom_succ, callsFrom_succ]
  obtain ⟨hr, hq⟩ | ⟨hr, hq⟩ | ⟨hr, hq⟩ : (E.exchanges r i = 0 ∧ E.exchanges q i = 1) ∨
      (E.exchanges r i = 0 ∧ E.exchanges q i = 2) ∨
      (E.exchanges r i = 1 ∧ E.exchanges q i = 2) := by omega
  · rw [hr, hq]
    exact compatible_cons_iff_nil haddrs
  · rw [hr, hq]
    exact compatible_cons_iff_nil haddrs
  · rw [hr, hq]
    refine compatible_cons.trans ((and_iff_right rfl).trans ?_)
    exact compatible_cons_iff_nil hdescs

/-- Where `r` is the first of the two ranks to make fewer calls for a thread, it makes none after
it. -/
def Setup.Quits (E : Setup) (r q : Fin 2) (i k : ℕ) : Prop :=
  ∀ j, i ≤ j → j < i + k → (∀ u, i ≤ u → u < j → E.exchanges r u = E.exchanges q u) →
    E.exchanges r j < E.exchanges q j → E.callsFrom r (j + 1) (i + k - (j + 1)) = []

theorem quits_of_lt (h : E.exchanges r i < E.exchanges q i) (k : ℕ) :
    E.Quits r q i (k + 1) ↔ E.callsFrom r (i + 1) k = [] := by
  have hrest : i + (k + 1) - (i + 1) = k := by omega
  constructor
  · intro hquits
    have := hquits i le_rfl (by omega) (fun u hlo hhi => by omega) h
    rwa [hrest] at this
  · intro hnil j hlo _ hbefore _
    rcases Nat.eq_or_lt_of_le hlo with rfl | hij
    · rwa [hrest]
    · exact absurd (hbefore i le_rfl hij) h.ne

theorem quits_of_gt (h : E.exchanges q i < E.exchanges r i) (k : ℕ) : E.Quits r q i (k + 1) := by
  intro j hlo _ hbefore hlt
  rcases Nat.eq_or_lt_of_le hlo with rfl | hij
  · exact absurd hlt h.asymm
  · exact absurd (hbefore i le_rfl hij) h.ne'

theorem quits_of_eq (h : E.exchanges r i = E.exchanges q i) (k : ℕ) :
    E.Quits r q i (k + 1) ↔ E.Quits r q (i + 1) k := by
  have hend : i + (k + 1) = i + 1 + k := by omega
  unfold Setup.Quits
  rw [hend]
  constructor
  · intro hquits j hlo hhi hbefore
    refine hquits j (by omega) hhi fun u hu huj => ?_
    rcases Nat.eq_or_lt_of_le hu with rfl | hiu
    · exact h
    · exact hbefore u hiu huj
  · intro hquits j hlo hhi hbefore hlt
    rcases Nat.eq_or_lt_of_le hlo with rfl | hij
    · exact absurd h hlt.ne
    · exact hquits j hij hhi (fun u hu => hbefore u (by omega)) hlt

theorem compatible_callsFrom (r q : Fin 2) (i k : ℕ) :
    Compatible (E.callsFrom r i k) (E.callsFrom q i k) ↔ E.Quits r q i k ∧ E.Quits q r i k := by
  induction k generalizing i with
  | zero =>
    refine iff_of_true ?_ ⟨fun j hlo hhi => by omega, fun j hlo hhi => by omega⟩
    exact compatible_of_prefix (roundsCalls_isPrefix r) (roundsCalls_isPrefix q)
  | succ k ih =>
    rcases lt_trichotomy (E.exchanges r i) (E.exchanges q i) with hlt | heq | hgt
    · rw [compatible_callsFrom_of_lt hlt, quits_of_lt hlt]
      exact (and_iff_left (quits_of_gt hlt k)).symm
    · rw [callsFrom_succ, callsFrom_succ, quits_of_eq heq, quits_of_eq heq.symm, heq,
        compatible_append, ih]
    · rw [compatible_comm, compatible_callsFrom_of_lt hgt, quits_of_lt hgt]
      exact (and_iff_right (quits_of_gt hgt k)).symm

/-- After thread `i` the rank makes no collective call: the initialisation of every later thread
ends before the exchange of addresses, and the buffers of some thread are not set. -/
def Setup.SilentAfter (E : Setup) (r : Fin 2) (i : ℕ) : Prop :=
  (∀ j, i < j → j < E.threads → E.exchanges r j = 0) ∧
    ∃ j < E.threads, ¬ Inserted (E.ret r j)

/-- At the first thread for which the ranks make different numbers of calls, the rank that makes
fewer makes none from there on. -/
def Setup.Matched (E : Setup) : Prop :=
  ∀ i < E.threads, (∀ j < i, E.exchanges 0 j = E.exchanges 1 j) →
    ∀ r q, E.exchanges r i < E.exchanges q i → E.SilentAfter r i

theorem threadCalls_eq_nil_iff {ret : FiCall → ℤ} :
    threadCalls ret i = [] ↔ RdmOneSided.exchanges ret = 0 := by
  unfold threadCalls
  rw [List.take_eq_nil_iff]
  simp

theorem roundsCalls_eq_nil_iff : E.roundsCalls r = [] ↔ ∃ j < E.threads, ¬ Inserted (E.ret r j) := by
  unfold Setup.roundsCalls
  split_ifs with hall hkeys
  · refine iff_of_false id ?_
    rintro ⟨j, hj, hnot⟩
    exact hnot (hall j hj)
  · refine iff_of_false (by simp) ?_
    rintro ⟨j, hj, hnot⟩
    exact hnot (hall j hj)
  · simpa using hall

theorem callsFrom_eq_nil_iff (h : i < E.threads) :
    E.callsFrom r (i + 1) (E.threads - (i + 1)) = [] ↔ E.SilentAfter r i := by
  rw [Setup.callsFrom, List.append_eq_nil_iff, List.flatMap_eq_nil_iff, roundsCalls_eq_nil_iff]
  refine and_congr_left' ⟨fun hnil j hlo hhi => ?_, fun hsilent j hj => ?_⟩
  · exact threadCalls_eq_nil_iff.mp (hnil j (List.mem_range'_1.mpr ⟨hlo, by omega⟩))
  · obtain ⟨hlo, hhi⟩ := List.mem_range'_1.mp hj
    exact threadCalls_eq_nil_iff.mpr (hsilent j hlo (by omega))

theorem quits_iff : E.Quits r q 0 E.threads ↔ ∀ i < E.threads,
    (∀ j < i, E.exchanges r j = E.exchanges q j) →
      E.exchanges r i < E.exchanges q i → E.SilentAfter r i := by
  unfold Setup.Quits
  simp only [Nat.zero_add, Nat.zero_le, true_implies]
  refine forall₂_congr fun i hi => forall_congr' fun _ => ?_
  rw [callsFrom_eq_nil_iff hi]

theorem compatible_calls_iff : Compatible (E.calls 0) (E.calls 1) ↔ E.Matched := by
  rw [calls_eq_callsFrom, calls_eq_callsFrom, compatible_callsFrom, quits_iff, quits_iff]
  constructor
  · rintro ⟨hzero, hone⟩ i hi hbefore
    simp only [Fin.forall_fin_two, lt_self_iff_false, false_implies, true_and, and_true]
    exact ⟨hzero i hi hbefore, hone i hi fun j hj => (hbefore j hj).symm⟩
  · intro hmatched
    exact ⟨fun i hi hbefore => hmatched i hi hbefore 0 1,
      fun i hi hbefore => hmatched i hi (fun j hj => (hbefore j hj).symm) 1 0⟩

theorem getElem?_flatMap_range {α : Type} {f : ℕ → List α} {n : ℕ} {x : α} (hi : i < n)
    (h : (f i)[k]? = some x) :
    ((List.range n).flatMap f)[((List.range i).flatMap f).length + k]? = some x := by
  obtain ⟨m, rfl⟩ : ∃ m, n = i + (m + 1) := ⟨n - i - 1, by omega⟩
  rw [List.range_add, List.flatMap_append, List.getElem?_append_right (Nat.le_add_right _ _),
    Nat.add_sub_cancel_left, List.range_succ_eq_map, List.map_cons, List.flatMap_cons, Nat.add_zero,
    List.getElem?_append_left (List.getElem?_eq_some_iff.mp h).1]
  exact h

def Setup.before (E : Setup) (r : Fin 2) (i : ℕ) : ℕ :=
  ((List.range i).flatMap fun i => threadCalls (E.ret r i) i).length

theorem before_succ (r : Fin 2) (i : ℕ) :
    E.before r (i + 1) = E.before r i + E.exchanges r i := by
  have hle := exchanges_le (E := E) r i
  rw [Setup.before, List.range_succ, List.flatMap_append, List.length_append, List.flatMap_singleton,
    threadCalls, List.length_take]
  change _ + min (E.exchanges r i) 2 = _
  rw [min_eq_left hle]
  rfl

theorem calls_thread {s : Stage} (hi : i < E.threads)
    (h : (threadCalls (E.ret r i) i)[k]? = some s) : (E.calls r)[E.before r i + k]? = some s := by
  have hget := getElem?_flatMap_range (f := fun i => threadCalls (E.ret r i) i) hi h
  rw [Setup.calls, Setup.before, List.getElem?_append_left (List.getElem?_eq_some_iff.mp hget).1]
  exact hget

theorem calls_rounds {s : Stage} (h : (E.roundsCalls r)[k]? = some s) :
    (E.calls r)[E.before r E.threads + k]? = some s := by
  rw [Setup.calls, Setup.before, List.getElem?_append_right (Nat.le_add_right _ _),
    Nat.add_sub_cancel_left]
  exact h

theorem length_calls (r : Fin 2) :
    (E.calls r).length = E.before r E.threads + (E.roundsCalls r).length :=
  List.length_append

end CrayTests.RdmOneSided
