import CrayTests.RankProgram

/-!
# Messages with completions

Ranks post sends and receives and wait for their completions. Between a sender and a receiver
the messages are matched with the posted receives in order; a send completes when it is
matched, or earlier if it is eager. A completion is first pending and then reported, to the
send or the receive queue of its rank. A rank takes reported completions one by one, or awaits
a number of them and resets the count.

`Inv` is what holds of the memory after the operations `ops` of the ranks: matching has taken
a common prefix of the messages and the receives, and each queue accounts for every posted
operation that is not yet consumed.
-/

namespace Messaging

open RankProgram

variable {n : ℕ} {M C : Type}

inductive Queue
  | send
  | recv
deriving DecidableEq

instance : Fintype Queue := ⟨{.send, .recv}, by rintro (_ | _) <;> simp⟩

inductive Op (n : ℕ) (M : Type)
  | send (dst : Fin n) (m : M)
  | recv (src : Fin n) (m : M)
  | take (q : Queue)
  | await (q : Queue) (k : ℕ)
  | reset (q : Queue)
  | clock (k : ℕ)

@[reducible] def Resp : Op n M → Type
  | .send _ _ => Unit
  | .recv _ _ => Unit
  | .take _ => Unit
  | .await _ _ => Unit
  | .reset _ => Unit
  | .clock _ => ℕ

@[reducible] def interface (n : ℕ) (M C : Type) : Interface := ⟨Op n M, Resp, C⟩

def update₂ {α β γ : Type*} [DecidableEq α] [DecidableEq β] (f : α → β → γ) (a : α) (b : β)
    (v : γ) (x : α) (y : β) : γ := if x = a ∧ y = b then v else f x y

/-- `chan a b` are the unmatched messages from `a` to `b`, each with whether it is eager, and
`posted a b` the unmatched receives of `b` for messages from `a`. -/
structure Mem (n : ℕ) (M : Type) where
  chan : Fin n → Fin n → List (M × Bool)
  posted : Fin n → Fin n → List M
  pending : Fin n → Queue → ℕ
  ready : Fin n → Queue → ℕ

namespace Mem

def empty : Mem n M := ⟨fun _ _ => [], fun _ _ => [], fun _ _ => 0, fun _ _ => 0⟩

def send (s : Mem n M) (a b : Fin n) (m : M) (eager : Bool) : Mem n M :=
  { s with
    chan := update₂ s.chan a b (s.chan a b ++ [(m, eager)])
    pending := update₂ s.pending a .send (s.pending a .send + eager.toNat) }

def recv (s : Mem n M) (a b : Fin n) (m : M) : Mem n M :=
  { s with posted := update₂ s.posted a b (s.posted a b ++ [m]) }

def setReady (s : Mem n M) (r : Fin n) (q : Queue) (k : ℕ) : Mem n M :=
  { s with ready := update₂ s.ready r q k }

/-- The first message from `a` to `b` meets the first receive; `ms` and `qs` are left. -/
def meet (s : Mem n M) (a b : Fin n) (eager : Bool) (ms : List (M × Bool)) (qs : List M) :
    Mem n M :=
  { s with
    chan := update₂ s.chan a b ms
    posted := update₂ s.posted a b qs
    pending := update₂ (update₂ s.pending a .send (s.pending a .send + (!eager).toNat)) b .recv
      (s.pending b .recv + 1) }

def report (s : Mem n M) (r : Fin n) (q : Queue) : Mem n M :=
  { s with
    pending := update₂ s.pending r q (s.pending r q - 1)
    ready := update₂ s.ready r q (s.ready r q + 1) }

/-- The posted operations of a rank that wait for their partner. -/
def unfinished (s : Mem n M) (r : Fin n) : Queue → ℕ
  | .send => ∑ b, (s.chan r b).countP fun x => !x.2
  | .recv => ∑ a, (s.posted a r).length

/-- The completions of a rank's posted operations that it has not consumed. -/
def due (s : Mem n M) (r : Fin n) (q : Queue) : ℕ :=
  s.unfinished r q + s.pending r q + s.ready r q

end Mem

def perform (clock : Fin n → ℕ → ℕ) (r : Fin n) (_ : ℕ) :
    (o : Op n M) → Mem n M → Resp o → Mem n M → Prop
  | .send b m, s, _, s' => ∃ eager, s' = s.send r b m eager
  | .recv a m, s, _, s' => s' = s.recv a r m
  | .take q, s, _, s' => 0 < s.ready r q ∧ s' = s.setReady r q (s.ready r q - 1)
  | .await q k, s, _, s' => k ≤ s.ready r q ∧ s' = s
  | .reset q, s, _, s' => s' = s.setReady r q 0
  | .clock k, s, x, s' => x = clock r k ∧ s' = s

inductive Drift : Mem n M → Mem n M → Prop
  | meet {s : Mem n M} (a b : Fin n) (m : M) (eager : Bool) (ms : List (M × Bool)) (q : M)
      (qs : List M) (hchan : s.chan a b = (m, eager) :: ms) (hposted : s.posted a b = q :: qs) :
      Drift s (s.meet a b eager ms qs)
  | report {s : Mem n M} (r : Fin n) (q : Queue) (hpending : 0 < s.pending r q) :
      Drift s (s.report r q)

@[reducible] def machine (M C : Type) (clock : Fin n → ℕ → ℕ) :
    Machine (interface n M C) n where
  Mem := Mem n M
  perform := perform clock
  drift := Drift

def sendsTo (b : Fin n) (ops : List (Op n M)) : List M :=
  ops.filterMap fun
    | .send c m => if c = b then some m else none
    | _ => none

def recvsFrom (a : Fin n) (ops : List (Op n M)) : List M :=
  ops.filterMap fun
    | .recv c m => if c = a then some m else none
    | _ => none

/-- The completions a rank has not consumed, and the number that it has just awaited. -/
structure Acct where
  out : Queue → ℕ
  awaited : Queue → Option ℕ

namespace Acct

def post (a : Acct) (q : Queue) : Acct :=
  ⟨Function.update a.out q (a.out q + 1), Function.update a.awaited q none⟩

def step (a : Acct) : Op n M → Acct
  | .send _ _ => a.post .send
  | .recv _ _ => a.post .recv
  | .take q => ⟨Function.update a.out q (a.out q - 1), Function.update a.awaited q none⟩
  | .await q k => ⟨a.out, Function.update a.awaited q (some k)⟩
  | .reset q => ⟨Function.update a.out q 0, Function.update a.awaited q none⟩
  | .clock _ => a

/-- A rank takes a completion that is due, awaits exactly those that are due, and resets a
count that it has just awaited. -/
def Allows (a : Acct) : Op n M → Prop
  | .take q => 0 < a.out q
  | .await q k => k = a.out q
  | .reset q => a.awaited q ≠ none
  | _ => True

def start : Acct := ⟨fun _ => 0, fun _ => none⟩

def after (a : Acct) (ops : List (Op n M)) : Acct := ops.foldl step a

def Balanced (a : Acct) : List (Op n M) → Prop
  | [] => True
  | o :: ops => a.Allows o ∧ Balanced (a.step o) ops

@[simp] theorem after_append (a : Acct) (xs ys : List (Op n M)) :
    a.after (xs ++ ys) = (a.after xs).after ys := List.foldl_append

theorem balanced_append (a : Acct) (xs ys : List (Op n M)) :
    a.Balanced (xs ++ ys) ↔ a.Balanced xs ∧ (a.after xs).Balanced ys := by
  induction xs generalizing a with
  | nil => simp [Balanced, after]
  | cons o xs ih =>
    simp only [List.cons_append, Balanced, ih, and_assoc]
    rfl

end Acct

/-- Matching has taken the first messages and the first receives, equally many. -/
def Fifo (chan : List (M × Bool)) (posted sends recvs : List M) : Prop :=
  ∃ k, k ≤ sends.length ∧ k ≤ recvs.length ∧ chan.map Prod.fst = sends.drop k ∧
    posted = recvs.drop k

structure Accounted (s : Mem n M) (r : Fin n) (a : Acct) : Prop where
  total : ∀ q, a.out q = s.due r q
  awaited : ∀ q k, a.awaited q = some k → s.ready r q = k ∧ a.out q = k

structure Inv (s : Mem n M) (ops : Fin n → List (Op n M)) : Prop where
  fifo : ∀ a b, Fifo (s.chan a b) (s.posted a b) (sendsTo b (ops a)) (recvsFrom a (ops b))
  acct : ∀ r, Accounted s r (Acct.start.after (ops r))

@[simp] theorem update₂_self {α β γ : Type*} [DecidableEq α] [DecidableEq β] (f : α → β → γ)
    (a : α) (b : β) (v : γ) : update₂ f a b v a b = v := by simp [update₂]

theorem update₂_ne {α β γ : Type*} [DecidableEq α] [DecidableEq β] {f : α → β → γ} {a x : α}
    {b y : β} {v : γ} (h : ¬ (x = a ∧ y = b)) : update₂ f a b v x y = f x y := by
  simp [update₂, h]

section Sums

variable {β γ δ : Type*} [DecidableEq β] [Fintype γ] [DecidableEq γ]

theorem sum_replace (f : γ → ℕ) (b : γ) (v : ℕ) :
    ∑ y, (if y = b then v else f y) + f b = ∑ y, f y + v := by
  have hrest : ∑ y ∈ Finset.univ.erase b, (if y = b then v else f y) =
      ∑ y ∈ Finset.univ.erase b, f y := by
    apply Finset.sum_congr rfl
    intro y hy
    rw [if_neg (Finset.ne_of_mem_erase hy)]
  rw [← Finset.add_sum_erase _ _ (Finset.mem_univ b),
    ← Finset.add_sum_erase _ f (Finset.mem_univ b), hrest, if_pos rfl]
  omega

/-- A sum over the second argument of an updated function. -/
theorem sum_update₂ (f : β → γ → δ) (g : δ → ℕ) (a x : β) (b : γ) (v : δ) :
    ∑ y, g (update₂ f a b v x y) + (if x = a then g (f a b) else 0) =
      ∑ y, g (f x y) + if x = a then g v else 0 := by
  by_cases h : x = a
  · subst h
    have := sum_replace (fun y => g (f x y)) b (g v)
    simpa [update₂, apply_ite g] using this
  · simp [update₂, h]

variable [Fintype β]

omit [Fintype γ] in
/-- A sum over the first argument of an updated function. -/
theorem sum_update₂' (f : β → γ → δ) (g : δ → ℕ) (a : β) (b y : γ) (v : δ) :
    ∑ x, g (update₂ f a b v x y) + (if y = b then g (f a b) else 0) =
      ∑ x, g (f x y) + if y = b then g v else 0 := by
  have := sum_update₂ (fun y x => f x y) g b y a v
  simpa [update₂, and_comm] using this

theorem sum_sum_update₂ (f : β → γ → δ) (g : δ → ℕ) (a : β) (b : γ) (v : δ) :
    ∑ x, ∑ y, g (update₂ f a b v x y) + g (f a b) = ∑ x, ∑ y, g (f x y) + g v := by
  have hrows : ∑ x, (∑ y, g (update₂ f a b v x y) + if x = a then g (f a b) else 0) =
      ∑ x, (∑ y, g (f x y) + if x = a then g v else 0) :=
    Finset.sum_congr rfl fun x _ => sum_update₂ f g a x b v
  simpa [Finset.sum_add_distrib] using hrows

end Sums

namespace Mem

variable (s : Mem n M) (a b r : Fin n) (m : M) (eager : Bool) (q : Queue)

theorem unfinished_send : (s.send a b m eager).unfinished r q =
    s.unfinished r q + if r = a ∧ q = .send then (!eager).toNat else 0 := by
  cases q with
  | recv => simp [unfinished, send]
  | send =>
    have := sum_update₂ s.chan (List.countP fun x => !x.2) a r b (s.chan a b ++ [(m, eager)])
    simp only [unfinished, send, and_true]
    by_cases h : r = a
    · simp only [h, if_true, List.countP_append, List.countP_singleton] at this ⊢
      cases eager <;> simp at this ⊢ <;> omega
    · simp only [h, if_false] at this ⊢
      omega

theorem unfinished_recv : (s.recv a b m).unfinished r q =
    s.unfinished r q + if r = b ∧ q = .recv then 1 else 0 := by
  cases q with
  | send => simp [unfinished, recv]
  | recv =>
    have := sum_update₂' s.posted List.length a b r (s.posted a b ++ [m])
    simp only [unfinished, recv, and_true]
    by_cases h : r = b
    · simp only [h, if_true, List.length_append, List.length_singleton] at this ⊢
      omega
    · simp only [h, if_false] at this ⊢
      omega

theorem unfinished_meet {ms : List (M × Bool)} {qs : List M} {p : M}
    (hchan : s.chan a b = (m, eager) :: ms) (hposted : s.posted a b = p :: qs) :
    s.unfinished r q = (s.meet a b eager ms qs).unfinished r q +
      (if r = a ∧ q = .send then (!eager).toNat else 0) +
      if r = b ∧ q = .recv then 1 else 0 := by
  cases q with
  | send =>
    have := sum_update₂ s.chan (List.countP fun x => !x.2) a r b ms
    simp only [unfinished, meet, and_true, reduceCtorEq, and_false, if_false]
    by_cases h : r = a
    · simp only [h, if_true, hchan, List.countP_cons] at this ⊢
      cases eager <;> simp at this ⊢ <;> omega
    · simp only [h, if_false] at this ⊢
      omega
  | recv =>
    have := sum_update₂' s.posted List.length a b r qs
    simp only [unfinished, meet, and_true, reduceCtorEq, and_false, if_false]
    by_cases h : r = b
    · simp only [h, if_true, hposted, List.length_cons] at this ⊢
      omega
    · simp only [h, if_false] at this ⊢
      omega

theorem due_send : (s.send a b m eager).due r q =
    s.due r q + if r = a ∧ q = .send then 1 else 0 := by
  unfold due
  rw [unfinished_send]
  by_cases h : r = a ∧ q = .send
  · obtain ⟨rfl, rfl⟩ := h
    cases eager <;> simp [send] <;> omega
  · simp only [h, if_false, send, update₂_ne h]
    omega

theorem due_recv : (s.recv a b m).due r q =
    s.due r q + if r = b ∧ q = .recv then 1 else 0 := by
  unfold due
  rw [unfinished_recv]
  simp only [recv]
  omega

theorem due_meet {ms : List (M × Bool)} {qs : List M} {p : M}
    (hchan : s.chan a b = (m, eager) :: ms) (hposted : s.posted a b = p :: qs) :
    (s.meet a b eager ms qs).due r q = s.due r q := by
  have hpending : (s.meet a b eager ms qs).pending r q = s.pending r q +
      (if r = a ∧ q = .send then (!eager).toNat else 0) +
      if r = b ∧ q = .recv then 1 else 0 := by
    simp only [meet, update₂]
    split_ifs with h₁ h₂ h₂
    · simp [h₁.2] at h₂
    · simp [h₁.1, h₁.2]
    · simp [h₂.1, h₂.2]
    · rfl
  unfold due
  rw [unfinished_meet s a b r m eager q hchan hposted, hpending]
  simp only [meet]
  omega

theorem due_report (x : Fin n) (p : Queue) (h : 0 < s.pending x p) :
    (s.report x p).due r q = s.due r q := by
  have hsame : (s.report x p).unfinished r q = s.unfinished r q := by
    cases q <;> rfl
  unfold due
  rw [hsame]
  by_cases hq : r = x ∧ q = p
  · obtain ⟨rfl, rfl⟩ := hq
    simp only [report, update₂_self]
    omega
  · simp only [report, update₂_ne hq]

theorem due_setReady (x : Fin n) (p : Queue) (k : ℕ) :
    (s.setReady x p k).due r q =
      if r = x ∧ q = p then s.unfinished r q + s.pending r q + k else s.due r q := by
  have hsame : (s.setReady x p k).unfinished r q = s.unfinished r q := by
    cases q <;> rfl
  unfold due
  rw [hsame]
  by_cases hq : r = x ∧ q = p
  · rw [if_pos hq, hq.1, hq.2]
    simp only [setReady, update₂_self]
  · rw [if_neg hq]
    simp only [setReady, update₂_ne hq]

end Mem

namespace Fifo

variable {chan ms : List (M × Bool)} {posted qs sends recvs : List M} {m q : M} {eager : Bool}

theorem send (h : Fifo chan posted sends recvs) :
    Fifo (chan ++ [(m, eager)]) posted (sends ++ [m]) recvs := by
  obtain ⟨k, hs, hr, hchan, hposted⟩ := h
  refine ⟨k, ?_, hr, ?_, hposted⟩
  · rw [List.length_append]
    omega
  · rw [List.drop_append_of_le_length hs, List.map_append, hchan]
    rfl

theorem recv (h : Fifo chan posted sends recvs) :
    Fifo chan (posted ++ [m]) sends (recvs ++ [m]) := by
  obtain ⟨k, hs, hr, hchan, hposted⟩ := h
  refine ⟨k, hs, ?_, hchan, ?_⟩
  · rw [List.length_append]
    omega
  · rw [List.drop_append_of_le_length hr, hposted]

theorem meet (h : Fifo ((m, eager) :: ms) (q :: qs) sends recvs) :
    Fifo ms qs sends recvs ∧
      ∃ k : ℕ, sends[k]? = some m ∧ recvs[k]? = some q := by
  obtain ⟨k, hs, hr, hchan, hposted⟩ := h
  have hks : k < sends.length := by
    by_contra hge
    rw [List.drop_eq_nil_of_le (by omega)] at hchan
    simp at hchan
  have hkr : k < recvs.length := by
    by_contra hge
    rw [List.drop_eq_nil_of_le (by omega)] at hposted
    simp at hposted
  rw [List.drop_eq_getElem_cons hks, List.map_cons] at hchan
  rw [List.drop_eq_getElem_cons hkr] at hposted
  obtain ⟨hm, hms⟩ := List.cons_eq_cons.mp hchan
  obtain ⟨hq, hqs⟩ := List.cons_eq_cons.mp hposted
  refine ⟨⟨k + 1, hks, hkr, hms, hqs⟩, k, ?_, ?_⟩
  · rw [List.getElem?_eq_getElem hks, ← hm]
  · rw [List.getElem?_eq_getElem hkr, ← hq]

end Fifo

@[simp] theorem sendsTo_nil (b : Fin n) : sendsTo b ([] : List (Op n M)) = [] := rfl

@[simp] theorem recvsFrom_nil (a : Fin n) : recvsFrom a ([] : List (Op n M)) = [] := rfl

theorem sendsTo_append (b : Fin n) (xs ys : List (Op n M)) :
    sendsTo b (xs ++ ys) = sendsTo b xs ++ sendsTo b ys := List.filterMap_append

theorem recvsFrom_append (a : Fin n) (xs ys : List (Op n M)) :
    recvsFrom a (xs ++ ys) = recvsFrom a xs ++ recvsFrom a ys := List.filterMap_append

def addOp (ops : Fin n → List (Op n M)) (r : Fin n) (o : Op n M) : Fin n → List (Op n M) :=
  Function.update ops r (ops r ++ [o])

variable {s s' : Mem n M} {ops : Fin n → List (Op n M)} {clock : Fin n → ℕ → ℕ} {r : Fin n}
  {e : ℕ} {o : Op n M} {acct : Acct}

theorem sendsTo_addOp (a b : Fin n) :
    sendsTo b (addOp ops r o a) = sendsTo b (ops a) ++ if a = r then sendsTo b [o] else [] := by
  unfold addOp
  by_cases h : a = r
  · subst h
    simp [sendsTo_append]
  · simp [h]

theorem recvsFrom_addOp (a b : Fin n) :
    recvsFrom a (addOp ops r o b) =
      recvsFrom a (ops b) ++ if b = r then recvsFrom a [o] else [] := by
  unfold addOp
  by_cases h : b = r
  · subst h
    simp [recvsFrom_append]
  · simp [h]

/-- An operation of a rank keeps the matching in order. -/
theorem fifo_perform {x : Resp o} (h : perform clock r e o s x s')
    (hfifo : ∀ a b, Fifo (s.chan a b) (s.posted a b) (sendsTo b (ops a)) (recvsFrom a (ops b)))
    (a b : Fin n) :
    Fifo (s'.chan a b) (s'.posted a b) (sendsTo b (addOp ops r o a))
      (recvsFrom a (addOp ops r o b)) := by
  rw [sendsTo_addOp, recvsFrom_addOp]
  have hf := hfifo a b
  cases o with
  | send c m =>
    obtain ⟨eager, rfl⟩ := h
    by_cases hab : a = r ∧ b = c
    · obtain ⟨rfl, rfl⟩ := hab
      simpa [Mem.send, sendsTo, recvsFrom] using hf.send
    · have hnone : (if a = r then sendsTo b [Op.send c m] else []) = [] := by
        by_cases ha : a = r
        · have hc : c ≠ b := fun hc => hab ⟨ha, hc.symm⟩
          simp [ha, sendsTo, hc]
        · simp [ha]
      simpa [Mem.send, update₂_ne hab, hnone, recvsFrom] using hf
  | recv c m =>
    obtain rfl := h
    by_cases hab : a = c ∧ b = r
    · obtain ⟨rfl, rfl⟩ := hab
      simpa [Mem.recv, sendsTo, recvsFrom] using hf.recv
    · have hnone : (if b = r then recvsFrom a [Op.recv c m] else []) = [] := by
        by_cases hb : b = r
        · have hc : c ≠ a := fun hc => hab ⟨hc.symm, hb⟩
          simp [hb, recvsFrom, hc]
        · simp [hb]
      simpa [Mem.recv, update₂_ne hab, hnone, sendsTo] using hf
  | take q =>
    obtain ⟨-, rfl⟩ := h
    simpa [Mem.setReady, sendsTo, recvsFrom] using hf
  | await q k =>
    obtain ⟨-, rfl⟩ := h
    simpa [sendsTo, recvsFrom] using hf
  | reset q =>
    obtain rfl := h
    simpa [Mem.setReady, sendsTo, recvsFrom] using hf
  | clock k =>
    obtain ⟨-, rfl⟩ := h
    simpa [sendsTo, recvsFrom] using hf

theorem fifo_drift (h : Drift s s') {sends recvs : Fin n → Fin n → List M}
    (hfifo : ∀ a b, Fifo (s.chan a b) (s.posted a b) (sends a b) (recvs a b)) (a b : Fin n) :
    Fifo (s'.chan a b) (s'.posted a b) (sends a b) (recvs a b) := by
  cases h with
  | meet c d m eager ms q qs hchan hposted =>
    by_cases hab : a = c ∧ b = d
    · obtain ⟨rfl, rfl⟩ := hab
      have hf := hfifo a b
      rw [hchan, hposted] at hf
      simpa [Mem.meet] using hf.meet.1
    · simpa [Mem.meet, update₂_ne hab] using hfifo a b
  | report x p hpending => exact hfifo a b

/-- A post of the rank: its queue has one completion more due. -/
theorem Accounted.post (ha : Accounted s r acct) {t : Mem n M} (p : Queue)
    (hready : t.ready = s.ready) (hdue : ∀ q, t.due r q = s.due r q + if q = p then 1 else 0) :
    Accounted t r (acct.post p) where
  total q := by
    rw [hdue, ← ha.total q]
    by_cases hq : q = p <;> simp [Acct.post, hq]
  awaited q k hk := by
    by_cases hq : q = p
    · simp [Acct.post, hq] at hk
    · simp only [Acct.post, Function.update_of_ne hq] at hk ⊢
      rw [hready]
      exact ha.awaited q k hk

/-- The rank leaves `k` of the completions that are ready. -/
theorem Accounted.setReady (ha : Accounted s r acct) (p : Queue) {k : ℕ} (hk : k ≤ s.ready r p) :
    Accounted (s.setReady r p k) r ⟨Function.update acct.out p (acct.out p - (s.ready r p - k)),
      Function.update acct.awaited p none⟩ where
  total q := by
    rw [Mem.due_setReady]
    by_cases hq : q = p
    · subst hq
      have htotal : acct.out q = s.unfinished r q + s.pending r q + s.ready r q := ha.total q
      rw [if_pos ⟨rfl, rfl⟩]
      simp only [Function.update_self]
      omega
    · simp [hq, ha.total q]
  awaited q i hi := by
    by_cases hq : q = p
    · simp [hq] at hi
    · simp only [Function.update_of_ne hq] at hi ⊢
      simpa [Mem.setReady, update₂, hq] using ha.awaited q i hi

/-- A wait finds all that is due. -/
theorem Accounted.await (ha : Accounted s r acct) {p : Queue} {k : ℕ} (hk : k ≤ s.ready r p)
    (hall : k = acct.out p) :
    Accounted s r { acct with awaited := Function.update acct.awaited p (some k) } where
  total := ha.total
  awaited q i hi := by
    by_cases hq : q = p
    · subst hq
      have htotal : acct.out q = s.unfinished r q + s.pending r q + s.ready r q := ha.total q
      simp only [Function.update_self, Option.some.injEq] at hi
      subst hi
      exact ⟨by omega, hall.symm⟩
    · simp only [Function.update_of_ne hq] at hi
      exact ha.awaited q i hi

/-- The account of a rank follows its own operations. -/
theorem accounted_self {x : Resp o} (h : perform clock r e o s x s')
    (ha : Accounted s r acct) (hallows : acct.Allows o) : Accounted s' r (acct.step o) := by
  cases o with
  | send b m =>
    obtain ⟨eager, rfl⟩ := h
    exact ha.post .send rfl fun q => by simpa using Mem.due_send s r b r m eager q
  | recv a m =>
    obtain rfl := h
    exact ha.post .recv rfl fun q => by simpa using Mem.due_recv s a r r m q
  | take p =>
    obtain ⟨hready, rfl⟩ := h
    have := ha.setReady p (Nat.sub_le (s.ready r p) 1)
    rwa [Nat.sub_sub_self hready] at this
  | await p k =>
    obtain ⟨hk, rfl⟩ := h
    exact ha.await hk hallows
  | reset p =>
    obtain rfl := h
    obtain ⟨k, hk⟩ := Option.ne_none_iff_exists'.mp hallows
    obtain ⟨hready, hout⟩ := ha.awaited p k hk
    have := ha.setReady p (Nat.zero_le _)
    rwa [show acct.out p - (s.ready r p - 0) = 0 by omega] at this
  | clock k =>
    obtain ⟨-, rfl⟩ := h
    exact ha

/-- The operations of the other ranks leave the account alone. -/
theorem accounted_other {x : Resp o} (h : perform clock r e o s x s') {y : Fin n} (hy : y ≠ r)
    (ha : Accounted s y acct) : Accounted s' y acct := by
  have hsame (t : Mem n M) (hready : ∀ q, t.ready y q = s.ready y q)
      (hdue : ∀ q, t.due y q = s.due y q) : Accounted t y acct :=
    ⟨fun q => (ha.total q).trans (hdue q).symm,
      fun q k hk => ⟨(hready q).trans (ha.awaited q k hk).1, (ha.awaited q k hk).2⟩⟩
  cases o with
  | send b m =>
    obtain ⟨eager, rfl⟩ := h
    exact hsame _ (fun _ => rfl) fun q => by simpa [hy] using Mem.due_send s r b y m eager q
  | recv a m =>
    obtain rfl := h
    exact hsame _ (fun _ => rfl) fun q => by simpa [hy] using Mem.due_recv s a r y m q
  | take p =>
    obtain ⟨-, rfl⟩ := h
    exact hsame _ (fun q => by simp [Mem.setReady, update₂, hy])
      fun q => by simpa [hy] using Mem.due_setReady s y q r p _
  | await p k =>
    obtain ⟨-, rfl⟩ := h
    exact ha
  | reset p =>
    obtain rfl := h
    exact hsame _ (fun q => by simp [Mem.setReady, update₂, hy])
      fun q => by simpa [hy] using Mem.due_setReady s y q r p _
  | clock k =>
    obtain ⟨-, rfl⟩ := h
    exact ha

theorem due_drift (h : Drift s s') (r : Fin n) (q : Queue) : s'.due r q = s.due r q := by
  cases h with
  | meet a b m eager ms p qs hchan hposted => exact Mem.due_meet s a b r m eager q hchan hposted
  | report x p hpending => exact Mem.due_report s r q x p hpending

theorem accounted_drift (h : Drift s s') (ha : Accounted s r acct) : Accounted s' r acct where
  total q := (ha.total q).trans (due_drift h r q).symm
  awaited q k hk := by
    obtain ⟨hready, hout⟩ := ha.awaited q k hk
    cases h with
    | meet a b m eager ms p qs hchan hposted => exact ⟨hready, hout⟩
    | report x p hpending =>
      have htotal := ha.total q
      unfold Mem.due at htotal
      have hne : ¬ (r = x ∧ q = p) := by
        rintro ⟨rfl, rfl⟩
        omega
      simpa [Mem.report, update₂_ne hne] using And.intro hready hout

theorem inv_empty : Inv (Mem.empty : Mem n M) fun _ => [] where
  fifo _ _ := ⟨0, le_rfl, le_rfl, rfl, rfl⟩
  acct r :=
    { total := fun q => by
        cases q <;> simp [Mem.due, Mem.unfinished, Mem.empty, Acct.after, Acct.start]
      awaited := fun q k h => by simp [Acct.after, Acct.start] at h }

theorem Inv.perform {x : Resp o} (hinv : Inv s ops) (h : perform clock r e o s x s')
    (hallows : (Acct.start.after (ops r)).Allows o) : Inv s' (addOp ops r o) where
  fifo := fifo_perform h hinv.fifo
  acct y := by
    by_cases hy : y = r
    · subst hy
      rw [addOp, Function.update_self, Acct.after_append]
      exact accounted_self h (hinv.acct y) hallows
    · rw [addOp, Function.update_of_ne hy]
      exact accounted_other h hy (hinv.acct y)

theorem Inv.drift (hinv : Inv s ops) (h : Drift s s') : Inv s' ops where
  fifo := fifo_drift h hinv.fifo
  acct r := accounted_drift h (hinv.acct r)

end Messaging
