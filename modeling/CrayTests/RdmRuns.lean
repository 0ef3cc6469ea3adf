import CrayTests.RdmCalls

/-!
# The ranks of `rdm_one_sided` make the calls of their lists

As long as the lists of calls agree, what a rank receives is determined, and so is everything it
does: `Gives` says in which epoch, with which result and with which memory of the threads a function
ends. Behind the `N`-th call, where the lists may differ, the contract asks for nothing.
-/

namespace CrayTests.RdmOneSided
open Kvs RankProgram

variable {E : Setup} {r q : Fin 2} {i j k : ℕ}

def Setup.stageLen (E : Setup) : Stage → ℕ
  | .addrs _ => E.addrlen
  | .descs _ => sizeofBufDesc
  | _ => 0

def Setup.stagePut (E : Setup) (r : Fin 2) : Stage → Option (List Byte)
  | .addrs i => some (encodeChars (E.name r i))
  | .descs i => some (encodeChars (E.bufDesc r i))
  | _ => none

def Setup.exchange (E : Setup) (r : Fin 2) (s : Stage) : Exchange :=
  ⟨s, E.stageLen s, E.stagePut r s⟩

/-- What is stored belongs to the same thread of the rank it is stored for. -/
structure Setup.Right (E : Setup) (mem : ThreadMem) : Prop where
  addrs : ∀ i addrs, (mem i).addrs = some addrs → addrs = fun q => E.name q i
  rbufDescs : ∀ i descs, (mem i).rbufDescs = some descs → descs = fun q => E.bufDesc q i

def Setup.Goes (E : Setup) (r : Fin 2) (mem : ThreadMem) : Op → Prop
  | .touchBufs i => (mem i).bufs = true
  | .runThreads _ => r = 0 → ∀ i < E.threads, (mem i).rbufDescs ≠ none
  | .abort => False
  | _ => True

/-- Up to its `N`-th call, the first being number 0, a rank makes the calls of its list. -/
def Setup.contract (E : Setup) (N : ℕ) : Contract jobInterface 2 ThreadMem where
  brings e r x := e ≤ N → (E.calls r)[e]?.map (E.exchange r) = some x
  may r e mem o := e ≤ N → E.Goes r mem o ∨ e = (E.calls r).length
  holds _ e mem := e ≤ N → E.Right mem

def Setup.view (E : Setup) : View E.machine ThreadMem where
  part mem := mem
  frame {r q e o mem x mem'} h hq := by
    cases o with
    | fi i call => rw [h.2]; exact Function.update_of_ne hq _ _
    | fiClose o => rw [show mem' = _ from h]
    | storeAddrs i addrs => rw [show mem' = _ from h]; exact Function.update_of_ne hq _ _
    | setBufs i => rw [show mem' = _ from h]; exact Function.update_of_ne hq _ _
    | storeDescs i descs => rw [show mem' = _ from h]; exact Function.update_of_ne hq _ _
    | readMr i mr => rw [h.2]
    | touchBufs i => rw [h.2]
    | runThreads size => rw [h.2]
    | abort => exact h.elim
  still h := h.elim

section Horizon

variable {N e e₁ e₂ : ℕ} {α β : Type} {mem mem₁ mem₂ : ThreadMem}

/-- Behind the horizon the contract asks for nothing. -/
theorem obeys_beyond {Q : ℕ → α → ThreadMem → Prop} (hQ : ∀ e a mem, N < e → Q e a mem)
    (he : N < e) (p : Job α) : Obeys E.view (E.contract N) r Q e p mem := by
  induction p generalizing e mem with
  | pure a => exact ⟨fun hle => absurd hle he.not_ge, hQ e a mem he⟩
  | op o next ih =>
    exact ⟨fun hle => absurd hle he.not_ge, fun hle => absurd hle he.not_ge,
      fun _ x _ _ _ => ih x he⟩
  | sync x next ih =>
    exact ⟨fun hle => absurd hle he.not_ge, fun hle => absurd hle he.not_ge,
      fun v _ => ih v (Nat.lt_succ_of_lt he)⟩

/-- Unless it gets behind the horizon, the program ends in epoch `e₁` with result `a` and leaves the
memory of the threads as `mem₁`. -/
def Setup.Gives (E : Setup) (N : ℕ) (r : Fin 2) (e : ℕ) (p : Job α) (mem : ThreadMem) (e₁ : ℕ) (a : α)
    (mem₁ : ThreadMem) : Prop :=
  Obeys E.view (E.contract N) r (fun e' a' mem' => e' ≤ N → e' = e₁ ∧ a' = a ∧ mem' = mem₁) e p mem

theorem gives_pure (h : E.Right mem) (a : α) : E.Gives N r e (.pure a) mem e a mem :=
  ⟨fun _ => h, fun _ => ⟨rfl, rfl, rfl⟩⟩

theorem Setup.Gives.seq {p : Job α} {f : α → Job β} {a : α} {Q : ℕ → β → ThreadMem → Prop}
    (h : E.Gives N r e p mem e₁ a mem₁) (hQ : ∀ e b mem, N < e → Q e b mem)
    (hf : E.Right mem₁ → Obeys E.view (E.contract N) r Q e₁ (f a) mem₁) :
    Obeys E.view (E.contract N) r Q e (p.bind f) mem := by
  refine Obeys.bind h fun e' a' mem' hright hends => ?_
  by_cases he : e' ≤ N
  · obtain ⟨rfl, rfl, rfl⟩ := hends he
    exact hf (hright he)
  · exact obeys_beyond hQ (not_le.mp he) _

theorem Setup.Gives.bind {p : Job α} {f : α → Job β} {a : α} {b : β}
    (h : E.Gives N r e p mem e₁ a mem₁)
    (hf : E.Right mem₁ → E.Gives N r e₁ (f a) mem₁ e₂ b mem₂) :
    E.Gives N r e (p.bind f) mem e₂ b mem₂ :=
  h.seq (fun _ _ _ hlt hle => absurd hle hlt.not_ge) hf

theorem gives_op {o : Op} {next : o.Resp → Job α} {a : α} (x : o.Resp) (mem₀ : ThreadMem)
    (h : E.Right mem) (hgoes : E.Goes r mem o)
    (hperform : ∀ m y m', m r = mem → E.machine.perform r e o m y m' → y = x ∧ m' r = mem₀)
    (hnext : E.Gives N r e (next x) mem₀ e₁ a mem₁) :
    E.Gives N r e (.op o next) mem e₁ a mem₁ := by
  refine ⟨fun _ => h, fun _ => .inl hgoes, fun m y m' hm hp => ?_⟩
  obtain ⟨rfl, hm'⟩ := hperform m y m' hm hp
  rw [show E.view.part m' r = mem₀ from hm']
  exact hnext

/-- A loop along given epochs and memories. -/
theorem gives_loop {body : ℕ → Unit → Job Unit} {i count : ℕ} (ep : ℕ → ℕ) (st : ℕ → ThreadMem)
    (h : E.Right (st 0))
    (hbody : ∀ k < count, E.Right (st k) →
      E.Gives N r (ep k) (body (i + k) ()) (st k) (ep (k + 1)) () (st (k + 1))) :
    E.Gives N r (ep 0) (Program.loop body i count ()) (st 0) (ep count) () (st count) := by
  induction count generalizing i ep st with
  | zero => exact gives_pure h ()
  | succ count ih =>
    refine (hbody 0 (Nat.succ_pos _) h).bind fun h₁ => ?_
    refine ih (fun k => ep (k + 1)) (fun k => st (k + 1)) h₁ fun k hk hright => ?_
    have := hbody (k + 1) (by omega) hright
    rwa [show i + (k + 1) = i + 1 + k by omega] at this

theorem gives_perform {o : Op} (x : o.Resp) (mem₀ : ThreadMem) (h : E.Right mem)
    (h₀ : E.Right mem₀) (hgoes : E.Goes r mem o)
    (hperform : ∀ m y m', m r = mem → E.machine.perform r e o m y m' → y = x ∧ m' r = mem₀) :
    E.Gives N r e (.op o .pure) mem e x mem₀ :=
  gives_op x mem₀ h hgoes hperform (gives_pure h₀ x)

variable {ptd : PerThreadData}

theorem eq_of_none_or_some {α : Type} {o : Option α} {a b : α} (h : o = none ∨ o = some a)
    (hb : o = some b) : b = a := by
  rcases h with hnone | hsome
  · rw [hnone] at hb
    cases hb
  · exact Option.some.inj (hb.symm.trans hsome)

theorem right_update (h : E.Right mem)
    (haddrs : ptd.addrs = none ∨ ptd.addrs = some fun q => E.name q i)
    (hdescs : ptd.rbufDescs = none ∨ ptd.rbufDescs = some fun q => E.bufDesc q i) :
    E.Right (Function.update mem i ptd) where
  addrs j addrs hj := by
    by_cases hji : j = i
    · subst hji
      rw [Function.update_self] at hj
      exact eq_of_none_or_some haddrs hj
    · rw [Function.update_of_ne hji] at hj
      exact h.addrs j addrs hj
  rbufDescs j descs hj := by
    by_cases hji : j = i
    · subst hji
      rw [Function.update_self] at hj
      exact eq_of_none_or_some hdescs hj
    · rw [Function.update_of_ne hji] at hj
      exact h.rbufDescs j descs hj

theorem gives_fiClose (h : E.Right mem) (o : FiObject) :
    E.Gives N r e (fiClose o) mem e () mem := by
  refine gives_perform (o := Op.fiClose o) () mem h h trivial ?_
  rintro m y m' rfl rfl
  exact ⟨rfl, rfl⟩

/-- A call that registers nothing. -/
theorem gives_fi (h : E.Right mem) (i : ℕ) {call : FiCall} (hcall : ∀ mr, call ≠ .fiMrReg mr) :
    E.Gives N r e (fi i call) mem e (E.ret r i call) mem := by
  refine gives_perform (o := Op.fi i call) _ mem h h trivial ?_
  rintro m y m' rfl ⟨rfl, rfl⟩
  refine ⟨rfl, ?_⟩
  have hsame : (m r i).register (E.ret r i call) call = m r i := by
    cases call with
    | fiMrReg mr => exact absurd rfl (hcall mr)
    | _ => rfl
  rw [hsame, ThreadMem.set, Function.update_self, Function.update_eq_self]

/-- The program makes no collective call, leaves the memory alone and returns 0 exactly when `P`. -/
def Setup.Returns (E : Setup) (N : ℕ) (r : Fin 2) (e : ℕ) (p : Job ℤ) (mem : ThreadMem)
    (P : Prop) : Prop := ∃ a, (a = 0 ↔ P) ∧ E.Gives N r e p mem e a mem

/-- The check of a return value, which goes on or cleans up and returns the value. -/
theorem returns_check {p succ : Job ℤ} {fail : ℤ → Job ℤ} {P Q : Prop}
    (hp : E.Returns N r e p mem P) (hfail : ∀ a, E.Gives N r e (fail a) mem e a mem)
    (hsucc : E.Returns N r e succ mem Q) :
    E.Returns N r e (p.bind fun ret => if ret ≠ 0 then fail ret else succ) mem (P ∧ Q) := by
  obtain ⟨a, ha, hgives⟩ := hp
  by_cases hzero : a = 0
  · obtain ⟨b, hb, hrest⟩ := hsucc
    refine ⟨b, ?_, hgives.bind fun _ => ?_⟩
    · rw [hb, and_iff_right (ha.mp hzero)]
    · rw [if_neg (not_not_intro hzero)]
      exact hrest
  · refine ⟨a, ?_, hgives.bind fun _ => ?_⟩
    · exact iff_of_false hzero fun h => hzero (ha.mpr h.1)
    · rw [if_pos hzero]
      exact hfail a

theorem returns_fi (h : E.Right mem) (i : ℕ) {call : FiCall} (hcall : ∀ mr, call ≠ .fiMrReg mr) :
    E.Returns N r e (fi i call) mem (E.ret r i call = 0) := ⟨_, Iff.rfl, gives_fi h i hcall⟩

theorem returns_zero (h : E.Right mem) : E.Returns N r e (.pure 0) mem True :=
  ⟨0, iff_of_true rfl trivial, gives_pure h 0⟩

theorem returns_allocEpRes (h : E.Right mem) (i : ℕ) :
    E.Returns N r e (allocEpRes i) mem (E.ret r i .fiCqOpenScq = 0 ∧ E.ret r i .fiCqOpenRcq = 0 ∧
      E.ret r i .fiAvOpen = 0 ∧ True) := by
  refine returns_check (returns_fi h i (by nofun)) (gives_pure h) ?_
  refine returns_check (returns_fi h i (by nofun)) (fun a => ?_) ?_
  · exact (gives_fiClose h _).bind fun _ => gives_pure h a
  refine returns_check (returns_fi h i (by nofun)) (fun a => ?_) (returns_zero h)
  exact (gives_fiClose h _).bind fun _ => (gives_fiClose h _).bind fun _ => gives_pure h a

theorem returns_bindEpRes (h : E.Right mem) (i : ℕ) :
    E.Returns N r e (bindEpRes i) mem (E.ret r i .fiEpBindScq = 0 ∧ E.ret r i .fiEpBindRcq = 0 ∧
      E.ret r i .fiEpBindAv = 0 ∧ E.ret r i .fiEnable = 0) := by
  refine returns_check (returns_fi h i (by nofun)) (gives_pure h) ?_
  refine returns_check (returns_fi h i (by nofun)) (gives_pure h) ?_
  exact returns_check (returns_fi h i (by nofun)) (gives_pure h) (returns_fi h i (by nofun))

theorem gives_freeEpRes (h : E.Right mem) (i : ℕ) :
    E.Gives N r e (freeEpRes i) mem e () mem :=
  (gives_fiClose h _).bind fun _ => (gives_fiClose h _).bind fun _ => gives_fiClose h _

theorem returns_initEndpoint (h : E.Right mem) (i : ℕ) :
    E.Returns N r e (initEndpoint i) mem (Opened (E.ret r i)) := by
  have hopened : (E.ret r i .fiEndpoint = 0 ∧ (E.ret r i .fiCqOpenScq = 0 ∧
      E.ret r i .fiCqOpenRcq = 0 ∧ E.ret r i .fiAvOpen = 0 ∧ True) ∧ (E.ret r i .fiEpBindScq = 0 ∧
      E.ret r i .fiEpBindRcq = 0 ∧ E.ret r i .fiEpBindAv = 0 ∧ E.ret r i .fiEnable = 0) ∧ True) ↔
      Opened (E.ret r i) := by
    simp only [Opened, and_true, and_assoc]
  rw [← hopened]
  refine returns_check (returns_fi h i (by nofun)) (fun a => ?_) ?_
  · exact (gives_fiClose h _).bind fun _ => gives_pure h a
  refine returns_check (returns_allocEpRes h i) (fun a => ?_) ?_
  · exact (gives_fiClose h _).bind fun _ => (gives_fiClose h _).bind fun _ => gives_pure h a
  refine returns_check (returns_bindEpRes h i) (fun a => ?_) (returns_zero h)
  exact (gives_freeEpRes h i).bind fun _ => (gives_fiClose h _).bind fun _ =>
    (gives_fiClose h _).bind fun _ => gives_pure h a

def Setup.AgreeBelow (E : Setup) (N : ℕ) : Prop :=
  ∀ e < N, ∀ r q s s', (E.calls r)[e]? = some s → (E.calls q)[e]? = some s' → s = s'

theorem obeys_sync {s : Stage} {next : (Fin 2 → Exchange) → Job α} {Q : ℕ → α → ThreadMem → Prop}
    (hQ : ∀ e a mem, N < e → Q e a mem) (hagree : E.AgreeBelow N) (h : E.Right mem)
    (hcall : (E.calls r)[e]? = some s)
    (hnext : Obeys E.view (E.contract N) r Q (e + 1) (next fun q => E.exchange q s) mem) :
    Obeys E.view (E.contract N) r Q e (.sync (E.exchange r s) next) mem := by
  refine ⟨fun _ => h, fun _ => by rw [hcall]; rfl, fun v hv => ?_⟩
  by_cases he : e < N
  · obtain rfl : v = fun q => E.exchange q s := by
      funext q
      obtain ⟨s', hs', hv'⟩ := Option.map_eq_some_iff.mp (hv q he.le)
      rw [← hv', hagree e he r q s s' hcall hs']
    exact hnext
  · exact obeys_beyond hQ (by omega) _

theorem storedValue_encodeChars {bs : List Byte} (h : bs.length < 2 ^ 30) :
    storedValue bs = some (encodeChars bs) := by
  rw [storedValue, encode_eq h.le, Option.map_some, cString_encodeChars]

theorem received_encodeChars {bs : List Byte} (stage : Stage) (h : bs.length < 2 ^ 30) :
    received bs.length ⟨stage, bs.length, some (encodeChars bs)⟩ = some bs :=
  receiveValue_encodeChars h List.length_replicate

theorem gives_ctpmAllgather {s : Stage} {len : ℕ} (srcs : Fin 2 → List Byte) (hlt : len < 2 ^ 30)
    (hlen : ∀ q, (srcs q).length = len)
    (hexchange : ∀ q, E.exchange q s = ⟨s, len, some (encodeChars (srcs q))⟩)
    (hagree : E.AgreeBelow N) (h : E.Right mem) (hcall : (E.calls r)[e]? = some s) :
    E.Gives N r e (ctpmAllgather s (srcs r) len) mem (e + 1) srcs mem := by
  have hreceived (q : Fin 2) : received len (E.exchange q s) = some (srcs q) := by
    rw [hexchange, ← hlen q]
    exact received_encodeChars s (by rw [hlen q]; exact hlt)
  unfold ctpmAllgather
  rw [← hlen r, List.take_length, storedValue_encodeChars (by rw [hlen r]; exact hlt), hlen r]
  dsimp only
  rw [← hexchange]
  refine obeys_sync (fun _ _ _ hlt hle => absurd hle hlt.not_ge) hagree h hcall ?_
  rw [if_pos fun q => by rw [hreceived]; rfl]
  simp only [hreceived]
  exact gives_pure h _

theorem gives_ctpmBarrier {s : Stage} (hlen : E.stageLen s = 0) (hput : E.stagePut r s = none)
    (hagree : E.AgreeBelow N) (h : E.Right mem) (hcall : (E.calls r)[e]? = some s) :
    E.Gives N r e (ctpmBarrier s) mem (e + 1) () mem := by
  unfold ctpmBarrier
  rw [show (⟨s, 0, none⟩ : Exchange) = E.exchange r s by rw [Setup.exchange, hlen, hput]]
  exact obeys_sync (fun _ _ _ hlt hle => absurd hle hlt.not_ge) hagree h hcall (gives_pure h ())

theorem gives_setThread {o : Op} (x : o.Resp) (ptd' : PerThreadData)
    (h : E.Right (Function.update mem i ptd)) (h' : E.Right (Function.update mem i ptd'))
    (hgoes : E.Goes r (Function.update mem i ptd) o)
    (hperform : ∀ m y m', m r i = ptd → E.machine.perform r e o m y m' →
      y = x ∧ m' = ThreadMem.set m r i ptd') :
    E.Gives N r e (.op o .pure) (Function.update mem i ptd) e x (Function.update mem i ptd') := by
  refine gives_perform x _ h h' hgoes fun m y m' hm hp => ?_
  obtain ⟨rfl, rfl⟩ := hperform m y m' (by rw [hm, Function.update_self]) hp
  refine ⟨rfl, ?_⟩
  rw [ThreadMem.set, Function.update_self, hm, Function.update_idem]

theorem gives_fiMrReg (mr : Mr) (h : E.Right (Function.update mem i ptd))
    (h' : E.Right (Function.update mem i (ptd.register (E.ret r i (.fiMrReg mr)) (.fiMrReg mr)))) :
    E.Gives N r e (fi i (.fiMrReg mr)) (Function.update mem i ptd) e (E.ret r i (.fiMrReg mr))
      (Function.update mem i (ptd.register (E.ret r i (.fiMrReg mr)) (.fiMrReg mr))) := by
  refine gives_setThread (o := Op.fi i (.fiMrReg mr)) _ _ h h' trivial ?_
  rintro m y m' rfl ⟨rfl, rfl⟩
  exact ⟨rfl, rfl⟩

/-- `ptd` after the exchange of addresses, after the assignment of the buffers, and after the
exchange of keys. -/
def Setup.named (E : Setup) (i : ℕ) : PerThreadData := { addrs := some fun q => E.name q i }

def Setup.buffered (E : Setup) (i : ℕ) : PerThreadData := { E.named i with bufs := true }

def Setup.keyed (E : Setup) (i : ℕ) : PerThreadData :=
  { (E.buffered i).register 0 (.fiMrReg .rMr) with rbufDescs := some fun q => E.bufDesc q i }

def Setup.loaded (E : Setup) (r : Fin 2) (i : ℕ) : PerThreadData :=
  if Registered (E.ret r i) then (E.keyed i).register (E.ret r i (.fiMrReg .lMr)) (.fiMrReg .lMr)
  else if Inserted (E.ret r i) then E.buffered i
  else if Named (E.ret r i) then E.named i else {}

theorem right_named (h : E.Right mem) (i : ℕ) : E.Right (Function.update mem i (E.named i)) :=
  right_update h (.inr rfl) (.inl rfl)

theorem right_buffered (h : E.Right mem) (i : ℕ) :
    E.Right (Function.update mem i (E.buffered i)) := right_update h (.inr rfl) (.inl rfl)

theorem right_keyed (h : E.Right mem) (i : ℕ) : E.Right (Function.update mem i (E.keyed i)) :=
  right_update h (.inr rfl) (.inr rfl)

theorem gives_storeAddrs (h : E.Right mem) (i : ℕ) :
    E.Gives N r e (.op (Op.storeAddrs i fun q => E.name q i) .pure) (Function.update mem i {}) e ()
      (Function.update mem i (E.named i)) := by
  refine gives_setThread (o := Op.storeAddrs i _) () _ (right_update h (.inl rfl) (.inl rfl))
    (right_named h i) trivial ?_
  rintro m y m' hm rfl
  rw [hm]
  exact ⟨rfl, rfl⟩

theorem gives_setBufs (h : E.Right mem) (i : ℕ) :
    E.Gives N r e (.op (Op.setBufs i) .pure) (Function.update mem i (E.named i)) e ()
      (Function.update mem i (E.buffered i)) := by
  refine gives_setThread (o := Op.setBufs i) () _ (right_named h i) (right_buffered h i) trivial ?_
  rintro m y m' hm rfl
  rw [hm]
  exact ⟨rfl, rfl⟩

theorem gives_storeDescs (h : E.Right mem) (i : ℕ) :
    E.Gives N r e (.op (Op.storeDescs i fun q => E.bufDesc q i) .pure)
      (Function.update mem i ((E.buffered i).register 0 (.fiMrReg .rMr))) e ()
      (Function.update mem i (E.keyed i)) := by
  refine gives_setThread (o := Op.storeDescs i _) () _ (right_update h (.inr rfl) (.inl rfl))
    (right_keyed h i) trivial ?_
  rintro m y m' hm rfl
  rw [hm]
  exact ⟨rfl, rfl⟩

theorem register_addrs (ptd : PerThreadData) (ret : ℤ) (call : FiCall) :
    (ptd.register ret call).addrs = ptd.addrs := by
  cases call <;> simp only [PerThreadData.register]
  split_ifs <;> rfl

theorem register_bufs (ptd : PerThreadData) (ret : ℤ) (call : FiCall) :
    (ptd.register ret call).bufs = ptd.bufs := by
  cases call <;> simp only [PerThreadData.register]
  split_ifs <;> rfl

theorem register_rbufDescs (ptd : PerThreadData) (ret : ℤ) (call : FiCall) :
    (ptd.register ret call).rbufDescs = ptd.rbufDescs := by
  cases call <;> simp only [PerThreadData.register]
  split_ifs <;> rfl

theorem exchanges_of_registered (h : Registered (E.ret r i)) : E.exchanges r i = 2 := by
  rw [Setup.exchanges, RdmOneSided.exchanges, if_pos h.1.1, if_pos h]

theorem exchanges_of_named (h : Named (E.ret r i)) (hnot : ¬ Registered (E.ret r i)) :
    E.exchanges r i = 1 := by
  rw [Setup.exchanges, RdmOneSided.exchanges, if_pos h, if_neg hnot]

theorem exchanges_of_not_named (h : ¬ Named (E.ret r i)) : E.exchanges r i = 0 := if_neg h

theorem calls_addrs (hi : i < E.threads) (h : Named (E.ret r i)) :
    (E.calls r)[E.before r i]? = some (.addrs i) := by
  refine calls_thread (k := 0) hi ?_
  unfold threadCalls RdmOneSided.exchanges
  rw [if_pos h]
  split_ifs <;> rfl

theorem calls_descs (hi : i < E.threads) (h : Registered (E.ret r i)) :
    (E.calls r)[E.before r i + 1]? = some (.descs i) := by
  refine calls_thread (k := 1) hi ?_
  unfold threadCalls RdmOneSided.exchanges
  rw [if_pos h.1.1, if_pos h]
  rfl

/-- `init_av` when the name is not obtained. -/
theorem gives_initAv_unnamed (h : E.Right mem) (hname : E.ret r i .fiGetname ≠ 0) :
    E.Gives N r e (initAv E r i) mem e (E.ret r i .fiGetname) mem := by
  refine (gives_fi h i (by nofun)).bind fun _ => (gives_fi h i (by nofun)).bind fun _ => ?_
  rw [if_pos hname]
  exact gives_pure h _

theorem gives_initAv (hagree : E.AgreeBelow N) (h : E.Right mem)
    (hname : E.ret r i .fiGetname = 0) (hcall : (E.calls r)[e]? = some (.addrs i)) :
    E.Gives N r e (initAv E r i) (Function.update mem i {}) (e + 1)
      (if E.ret r i .fiAvInsert ≠ 2 then E.ret r i .fiAvInsert else 0)
      (Function.update mem i (E.named i)) := by
  have hfresh : E.Right (Function.update mem i {}) := right_update h (.inl rfl) (.inl rfl)
  refine (gives_fi hfresh i (by nofun)).bind fun _ => ?_
  refine (gives_fi hfresh i (by nofun)).bind fun _ => ?_
  rw [if_neg (not_not_intro hname)]
  refine (gives_ctpmAllgather (fun q => E.name q i) E.addrlen_lt (fun q => E.length_name q i)
    (fun _ => rfl) hagree hfresh hcall).bind fun _ => (gives_storeAddrs h i).bind fun h' => ?_
  refine (gives_fi h' i (by nofun)).bind fun _ => ?_
  split_ifs
  · exact gives_pure h' _
  · exact gives_pure h' _

/-- The second half of `init_per_thread_data`. -/
theorem gives_registration (hagree : E.AgreeBelow N) (h : E.Right mem)
    (hcall : E.ret r i (.fiMrReg .rMr) = 0 → (E.calls r)[e]? = some (.descs i)) :
    ∃ a, E.Gives N r e (do
        .op (Op.setBufs i) .pure
        let ret ← fi i (.fiMrReg .rMr)
        if ret ≠ 0 then pure (-1)
        else
          let descs ← ctpmAllgather (.descs i) (E.bufDesc r i) sizeofBufDesc
          .op (Op.storeDescs i descs) .pure
          let ret ← fi i (.fiMrReg .lMr)
          if ret ≠ 0 then pure (-1) else pure 0) (Function.update mem i (E.named i))
      (if E.ret r i (.fiMrReg .rMr) = 0 then e + 1 else e) a
      (Function.update mem i (if E.ret r i (.fiMrReg .rMr) = 0 then
        (E.keyed i).register (E.ret r i (.fiMrReg .lMr)) (.fiMrReg .lMr) else E.buffered i)) := by
  have hbuffered := right_buffered h i
  have hregistered (ret : ℤ) :
      E.Right (Function.update mem i ((E.buffered i).register ret (.fiMrReg .rMr))) :=
    right_update h (.inr (register_addrs _ _ _)) (.inl (register_rbufDescs _ _ _))
  by_cases hret : E.ret r i (.fiMrReg .rMr) = 0
  swap
  · refine ⟨-1, (gives_setBufs h i).bind fun _ => ?_⟩
    refine (gives_fiMrReg .rMr hbuffered (hregistered _)).bind fun _ => ?_
    rw [if_pos hret, if_neg hret, if_neg hret]
    rw [show (E.buffered i).register (E.ret r i (.fiMrReg .rMr)) (.fiMrReg .rMr) = E.buffered i from
      if_neg hret]
    exact gives_pure hbuffered _
  have hloaded : E.Right (Function.update mem i
      ((E.keyed i).register (E.ret r i (.fiMrReg .lMr)) (.fiMrReg .lMr))) :=
    right_update h (.inr (register_addrs _ _ _)) (.inr (register_rbufDescs _ _ _))
  refine ⟨if E.ret r i (.fiMrReg .lMr) ≠ 0 then -1 else 0,
    (gives_setBufs h i).bind fun _ => ?_⟩
  refine (gives_fiMrReg .rMr hbuffered (hregistered _)).bind fun _ => ?_
  rw [if_neg (not_not_intro hret), if_pos hret, if_pos hret, hret]
  refine (gives_ctpmAllgather (fun q => E.bufDesc q i) (by decide) (fun q => E.length_bufDesc q i)
    (fun _ => rfl) hagree (hregistered 0) (hcall hret)).bind fun _ => ?_
  refine (gives_storeDescs h i).bind fun hkeyed => ?_
  refine (gives_fiMrReg .lMr hkeyed hloaded).bind fun _ => ?_
  split_ifs
  · exact gives_pure hloaded _
  · exact gives_pure hloaded _

theorem gives_initEndpoint (h : E.Right mem) (hopen : Opened (E.ret r i)) :
    E.Gives N r e (initEndpoint i) mem e 0 mem := by
  obtain ⟨opened, hopened, hendpoint⟩ := returns_initEndpoint (N := N) (r := r) (e := e) h i
  rwa [hopened.mpr hopen] at hendpoint

/-- The thread does not get to the exchange of addresses. -/
theorem gives_initPerThreadData_unnamed (h : E.Right mem) (hnot : ¬ Named (E.ret r i)) :
    ∃ a, E.Gives N r e (initPerThreadData E r i) mem e a mem := by
  by_cases hopen : Opened (E.ret r i)
  · have hname : E.ret r i .fiGetname ≠ 0 := fun hname => hnot ⟨hopen, hname⟩
    refine ⟨E.ret r i .fiGetname, (gives_initEndpoint h hopen).bind fun _ => ?_⟩
    rw [if_neg (not_not_intro rfl)]
    refine (gives_initAv_unnamed h hname).bind fun _ => ?_
    rw [if_pos hname]
    exact gives_pure h _
  · obtain ⟨opened, hopened, hendpoint⟩ := returns_initEndpoint (N := N) (r := r) (e := e) h i
    refine ⟨opened, hendpoint.bind fun _ => ?_⟩
    rw [if_pos fun hzero => hopen (hopened.mp hzero)]
    exact gives_pure h _

/-- The thread gets to the exchange of addresses and not to the assignment of the buffers. -/
theorem gives_initPerThreadData_not_inserted (hagree : E.AgreeBelow N) (h : E.Right mem)
    (hi : i < E.threads) (hname : Named (E.ret r i)) (hnot : ¬ Inserted (E.ret r i)) :
    ∃ a, E.Gives N r (E.before r i) (initPerThreadData E r i) (Function.update mem i {})
      (E.before r i + 1) a (Function.update mem i (E.named i)) := by
  have hfresh : E.Right (Function.update mem i {}) := right_update h (.inl rfl) (.inl rfl)
  refine ⟨E.ret r i .fiAvInsert, (gives_initEndpoint hfresh hname.1).bind fun _ => ?_⟩
  rw [if_neg (not_not_intro rfl)]
  refine (gives_initAv hagree h hname.2 (calls_addrs hi hname)).bind fun hnamed => ?_
  have hfails : E.ret r i .fiAvInsert ≠ 2 ∧ E.ret r i .fiAvInsert ≠ 0 :=
    not_or.mp fun hinsert => hnot ⟨hname, hinsert⟩
  rw [if_pos hfails.1, if_pos hfails.2]
  exact gives_pure hnamed _

/-- The thread gets to the assignment of the buffers. -/
theorem gives_initPerThreadData_inserted (hagree : E.AgreeBelow N) (h : E.Right mem)
    (hi : i < E.threads) (hins : Inserted (E.ret r i)) :
    ∃ a, E.Gives N r (E.before r i) (initPerThreadData E r i) (Function.update mem i {})
      (if E.ret r i (.fiMrReg .rMr) = 0 then E.before r i + 1 + 1 else E.before r i + 1) a
      (Function.update mem i (if E.ret r i (.fiMrReg .rMr) = 0 then
        (E.keyed i).register (E.ret r i (.fiMrReg .lMr)) (.fiMrReg .lMr) else E.buffered i)) := by
  have hfresh : E.Right (Function.update mem i {}) := right_update h (.inl rfl) (.inl rfl)
  obtain ⟨a, hreg⟩ := gives_registration (r := r) (e := E.before r i + 1) hagree h
    fun hret => calls_descs hi ⟨hins, hret⟩
  refine ⟨a, (gives_initEndpoint hfresh hins.1.1).bind fun _ => ?_⟩
  rw [if_neg (not_not_intro rfl)]
  refine (gives_initAv hagree h hins.1.2 (calls_addrs hi hins.1)).bind fun _ => ?_
  have hreturned : (if E.ret r i .fiAvInsert ≠ 2 then E.ret r i .fiAvInsert else 0) = 0 := by
    rcases hins.2 with h2 | h0
    · rw [if_neg (not_not_intro h2)]
    · rw [h0, if_pos (by norm_num)]
  rw [hreturned, if_neg (not_not_intro rfl)]
  exact hreg

theorem gives_initPerThreadData (hagree : E.AgreeBelow N) (h : E.Right mem) (hi : i < E.threads) :
    ∃ a, E.Gives N r (E.before r i) (initPerThreadData E r i) (Function.update mem i {})
      (E.before r (i + 1)) a (Function.update mem i (E.loaded r i)) := by
  rw [before_succ, Setup.loaded]
  by_cases hname : Named (E.ret r i)
  swap
  · rw [exchanges_of_not_named hname, if_neg fun hreg => hname hreg.1.1,
      if_neg fun hins => hname hins.1, if_neg hname]
    exact gives_initPerThreadData_unnamed (right_update h (.inl rfl) (.inl rfl)) hname
  by_cases hins : Inserted (E.ret r i)
  swap
  · rw [exchanges_of_named hname fun hreg => hins hreg.1, if_neg fun hreg => hins hreg.1,
      if_neg hins, if_pos hname]
    exact gives_initPerThreadData_not_inserted hagree h hi hname hins
  obtain ⟨a, hinit⟩ := gives_initPerThreadData_inserted (r := r) hagree h hi hins
  refine ⟨a, ?_⟩
  by_cases hret : E.ret r i (.fiMrReg .rMr) = 0
  · have hreg : Registered (E.ret r i) := ⟨hins, hret⟩
    rw [exchanges_of_registered hreg, if_pos hreg]
    rwa [if_pos hret, if_pos hret] at hinit
  · have hreg : ¬ Registered (E.ret r i) := fun hreg => hret hreg.2
    rw [exchanges_of_named hname hreg, if_neg hreg, if_pos hins]
    rwa [if_neg hret, if_neg hret] at hinit

def Setup.memAfter (E : Setup) (r : Fin 2) (k : ℕ) : ThreadMem :=
  fun j => if j < k then E.loaded r j else {}

theorem memAfter_fresh (r : Fin 2) (k : ℕ) :
    Function.update (E.memAfter r k) k {} = E.memAfter r k := by
  rw [Function.update_eq_self_iff]
  exact (if_neg (lt_irrefl k)).symm

theorem memAfter_succ (r : Fin 2) (k : ℕ) :
    Function.update (E.memAfter r k) k (E.loaded r k) = E.memAfter r (k + 1) := by
  funext j
  by_cases hj : j = k
  · subst hj
    rw [Function.update_self]
    exact (if_pos (Nat.lt_succ_self j)).symm
  · rw [Function.update_of_ne hj]
    unfold Setup.memAfter
    by_cases hlt : j < k
    · rw [if_pos hlt, if_pos (by omega)]
    · rw [if_neg hlt, if_neg (by omega)]

theorem gives_initThreads (hagree : E.AgreeBelow N) (r : Fin 2) :
    E.Gives N r 0 (Program.loop (fun i _ => do
      let _ ← initPerThreadData E r i
      pure ()) 0 E.threads ()) (fun _ => {}) (E.before r E.threads) () (E.memAfter r E.threads) := by
  refine gives_loop (E.before r) (E.memAfter r) ⟨fun i v h => ?_, fun i v h => ?_⟩ fun k hk h => ?_
  · cases h
  · cases h
  · obtain ⟨a, hinit⟩ := gives_initPerThreadData (r := r) hagree h hk
    rw [memAfter_fresh, memAfter_succ] at hinit
    rw [Nat.zero_add]
    exact hinit.bind fun hright => gives_pure hright ()

theorem loaded_bufs (r : Fin 2) (i : ℕ) : (E.loaded r i).bufs = true ↔ Inserted (E.ret r i) := by
  unfold Setup.loaded
  by_cases hins : Inserted (E.ret r i)
  · refine iff_of_true ?_ hins
    split_ifs
    · rw [register_bufs]
      rfl
    · rfl
  · rw [if_neg fun hreg => hins hreg.1, if_neg hins]
    refine iff_of_false ?_ hins
    split_ifs <;> nofun

theorem loaded_rbufDescs (r : Fin 2) (i : ℕ) :
    (E.loaded r i).rbufDescs ≠ none ↔ Registered (E.ret r i) := by
  unfold Setup.loaded
  split_ifs with hreg hins hname
  · rw [register_rbufDescs]
    exact iff_of_true nofun hreg
  · exact iff_of_false (fun h => h rfl) hreg
  · exact iff_of_false (fun h => h rfl) hreg
  · exact iff_of_false (fun h => h rfl) hreg

/-- A rank that touches buffers that are not set has made its last call. -/
theorem obeys_touchBufs (h : E.Right mem)
    (hstop : (∃ j < E.threads, ¬ (mem j).bufs = true) → e = (E.calls r).length) :
    Obeys E.view (E.contract N) r
      (fun e' _ mem' => e' ≤ N → e' = e ∧ mem' = mem ∧ ∀ j < E.threads, (mem j).bufs = true) e
      (Program.loop (fun i _ => .op (Op.touchBufs i) .pure) 0 E.threads ()) mem := by
  refine Obeys.loop
    (fun k e' _ mem' => e' ≤ N → e' = e ∧ mem' = mem ∧ ∀ j < k, (mem j).bufs = true)
    (fun k hk e' _ mem' hholds hinv => ?_) (fun _ => h) fun _ => ⟨rfl, rfl, fun j hj => by omega⟩
  rw [Nat.zero_add]
  by_cases he : e' ≤ N
  swap
  · exact obeys_beyond (fun e _ _ hlt hle => absurd hle hlt.not_ge) (not_le.mp he) _
  obtain ⟨rfl, rfl, hbefore⟩ := hinv he
  refine ⟨hholds, fun _ => ?_, fun m y m' hm hp => ?_⟩
  · by_cases hset : (mem' k).bufs = true
    · exact .inl hset
    · exact .inr (hstop ⟨k, hk, hset⟩)
  · obtain ⟨hset, rfl⟩ := hp
    rw [hm]
    refine ⟨hholds, fun _ => ⟨rfl, rfl, fun j hj => ?_⟩⟩
    rcases Nat.lt_succ_iff_lt_or_eq.mp hj with hlt | rfl
    · exact hbefore j hlt
    · rw [← hm]
      exact hset

theorem gives_touchBufs (h : E.Right mem) (hset : ∀ j < E.threads, (mem j).bufs = true) :
    E.Gives N r e (Program.loop (fun i _ => .op (Op.touchBufs i) .pure) 0 E.threads ()) mem e ()
      mem := by
  refine (obeys_touchBufs h fun ⟨j, hj, hnot⟩ => absurd (hset j hj) hnot).mono ?_
  intro e' a mem' hends he
  obtain ⟨rfl, rfl, -⟩ := hends he
  exact ⟨rfl, rfl, rfl⟩

theorem gives_measure (hagree : E.AgreeBelow N) (h : E.Right mem) {size : ℕ}
    (hset : ∀ j < E.threads, (mem j).bufs = true)
    (hdescs : r = 0 → ∀ j < E.threads, (mem j).rbufDescs ≠ none)
    (hstart : (E.calls r)[e]? = some (.start size))
    (hfinish : (E.calls r)[e + 1]? = some (.finish size)) :
    E.Gives N r e (measure E size) mem (e + 2) () mem := by
  refine (gives_touchBufs h hset).bind fun _ => ?_
  refine (gives_ctpmBarrier rfl rfl hagree h hstart).bind fun _ => ?_
  have hthreads : E.Gives N r (e + 1) (.op (Op.runThreads size) .pure) mem (e + 1) () mem := by
    refine gives_perform (o := Op.runThreads size) () mem h h hdescs ?_
    rintro m y m' rfl ⟨-, rfl⟩
    exact ⟨rfl, rfl⟩
  refine hthreads.bind fun _ => ?_
  exact gives_ctpmBarrier rfl rfl hagree h hfinish

/-- A program that does not end before the horizon. -/
theorem obeys_stop {p : Job α} {f : α → Job β} {Q : ℕ → β → ThreadMem → Prop}
    (hQ : ∀ e a mem, N < e → Q e a mem)
    (h : Obeys E.view (E.contract N) r (fun e _ _ => N < e) e p mem) :
    Obeys E.view (E.contract N) r Q e (p.bind f) mem :=
  Obeys.bind h fun _ _ _ _ hlt => obeys_beyond hQ hlt _

theorem obeys_measure_unset (h : E.Right mem) {size : ℕ}
    (hunset : ∃ j < E.threads, ¬ (mem j).bufs = true) (hlast : e = (E.calls r).length) :
    Obeys E.view (E.contract N) r (fun e _ _ => N < e) e (measure E size) mem := by
  refine obeys_stop (fun _ _ _ => id) ((obeys_touchBufs h fun _ => hlast).mono ?_)
  intro e' _ _ hends
  by_contra hle
  obtain ⟨j, hj, hnot⟩ := hunset
  exact hnot ((hends (not_lt.mp hle)).2.2 j hj)

theorem obeys_measure_unkeyed (hagree : E.AgreeBelow N) (h : E.Right mem) (size : ℕ)
    (hset : ∀ j < E.threads, (mem j).bufs = true)
    (hdescs : ¬ (r = 0 → ∀ j < E.threads, (mem j).rbufDescs ≠ none))
    (hstart : (E.calls r)[e]? = some (.start size)) (hlast : e + 1 = (E.calls r).length) :
    Obeys E.view (E.contract N) r (fun e _ _ => N < e) e (measure E size) mem := by
  refine (gives_touchBufs h hset).seq (fun _ _ _ => id) fun _ => ?_
  refine (gives_ctpmBarrier rfl rfl hagree h hstart).seq (fun _ _ _ => id) fun _ => ?_
  refine ⟨fun _ => h, fun _ => .inr hlast, ?_⟩
  rintro m y m' rfl ⟨hkeys, rfl⟩
  exact absurd hkeys hdescs

theorem gives_readMr (h : E.Right mem) (i : ℕ) (mr : Mr) :
    E.Gives N r e (.op (Op.readMr i mr) .pure) mem e ((mem i).mr mr) mem := by
  refine gives_perform (o := Op.readMr i mr) _ mem h h trivial ?_
  rintro m y m' rfl ⟨rfl, rfl⟩
  exact ⟨rfl, rfl⟩

theorem gives_finiPerThreadData (h : E.Right mem) (i : ℕ) :
    E.Gives N r e (finiPerThreadData i) mem e () mem := by
  have hrest : E.Gives N r e (do freeEpRes i; fiClose (.ep i)) mem e () mem :=
    (gives_freeEpRes h i).bind fun _ => gives_fiClose h _
  have hsecond : E.Gives N r e (do
      let rMr ← .op (Op.readMr i .rMr) .pure
      if rMr then fiClose (.mr i .rMr)
      freeEpRes i
      fiClose (.ep i)) mem e () mem := by
    refine (gives_readMr h i .rMr).bind fun _ => ?_
    split_ifs
    · exact (gives_fiClose h _).bind fun _ => hrest
    · exact hrest
  refine (gives_readMr h i .lMr).bind fun _ => ?_
  split_ifs
  · exact (gives_fiClose h _).bind fun _ => hsecond
  · exact hsecond

theorem length_flatMap_roundCalls (k : ℕ) : ((List.range k).flatMap roundCalls).length = 2 * k := by
  induction k with
  | zero => rfl
  | succ k ih =>
    rw [List.range_succ, List.flatMap_append, List.length_append, ih]
    rfl

theorem calls_round (hfull : E.roundsCalls r = (List.range numSizes).flatMap roundCalls ++ [.last])
    (hk : k < numSizes) : (E.calls r)[E.before r E.threads + 2 * k]? = some (.start (2 ^ k)) ∧
      (E.calls r)[E.before r E.threads + 2 * k + 1]? = some (.finish (2 ^ k)) := by
  have hround {j : ℕ} {s : Stage} (h : (roundCalls k)[j]? = some s) :
      (E.calls r)[E.before r E.threads + (2 * k + j)]? = some s := by
    have hget := getElem?_flatMap_range hk h
    rw [length_flatMap_roundCalls] at hget
    refine calls_rounds ?_
    rw [hfull, List.getElem?_append_left (List.getElem?_eq_some_iff.mp hget).1]
    exact hget
  exact ⟨hround (j := 0) rfl, hround (j := 1) rfl⟩

/-- The rest of `main` when all threads have what they need. -/
theorem gives_rounds (hagree : E.AgreeBelow N) (h : E.Right mem)
    (hset : ∀ j < E.threads, (mem j).bufs = true)
    (hdescs : r = 0 → ∀ j < E.threads, (mem j).rbufDescs ≠ none)
    (hfull : E.roundsCalls r = (List.range numSizes).flatMap roundCalls ++ [.last]) :
    E.Gives N r (E.before r E.threads) (do
      Program.loop (fun k _ => measure E (2 ^ k)) 0 numSizes ()
      Program.loop (fun i _ => finiPerThreadData i) 0 E.threads ()
      fiClose .dom
      fiClose .fab
      ctpmBarrier .last) mem (E.calls r).length () mem := by
  have hloop : E.Gives N r (E.before r E.threads)
      (Program.loop (fun k _ => measure E (2 ^ k)) 0 numSizes ()) mem
      (E.before r E.threads + 2 * numSizes) () mem := by
    refine gives_loop (fun k => E.before r E.threads + 2 * k) (fun _ => mem) h fun k hk _ => ?_
    rw [Nat.zero_add]
    obtain ⟨hstart, hfinish⟩ := calls_round hfull hk
    exact gives_measure hagree h hset hdescs hstart hfinish
  have hfini : E.Gives N r (E.before r E.threads + 2 * numSizes)
      (Program.loop (fun i _ => finiPerThreadData i) 0 E.threads ()) mem
      (E.before r E.threads + 2 * numSizes) () mem :=
    gives_loop (fun _ => E.before r E.threads + 2 * numSizes) (fun _ => mem) h
      fun k _ _ => gives_finiPerThreadData h _
  have hlast : (E.calls r)[E.before r E.threads + 2 * numSizes]? = some .last := by
    refine calls_rounds ?_
    rw [hfull, ← length_flatMap_roundCalls numSizes, List.getElem?_concat_length]
  have hlength : (E.calls r).length = E.before r E.threads + 2 * numSizes + 1 := by
    rw [length_calls, hfull, List.length_append, length_flatMap_roundCalls]
    rfl
  rw [hlength]
  refine hloop.bind fun _ => hfini.bind fun _ => ?_
  refine (gives_fiClose h _).bind fun _ => (gives_fiClose h _).bind fun _ => ?_
  exact gives_ctpmBarrier rfl rfl hagree h hlast

/-- Within the horizon a rank that returns from `main` has made all its calls. -/
theorem obeys_main (hagree : E.AgreeBelow N) (r : Fin 2) :
    Obeys E.view (E.contract N) r (fun e _ _ => e ≤ N → e = (E.calls r).length) 0 (main E r)
      (fun _ => {}) := by
  have hbeyond : ∀ e (_ : Unit) (_ : ThreadMem), N < e → e ≤ N → e = (E.calls r).length :=
    fun e _ _ hlt hle => absurd hle hlt.not_ge
  refine (gives_initThreads hagree r).seq hbeyond fun h => ?_
  have hbufs (j : ℕ) (hj : j < E.threads) :
      (E.memAfter r E.threads j).bufs = true ↔ Inserted (E.ret r j) := by
    rw [Setup.memAfter, if_pos hj, loaded_bufs]
  have hdescs (j : ℕ) (hj : j < E.threads) :
      (E.memAfter r E.threads j).rbufDescs ≠ none ↔ Registered (E.ret r j) := by
    rw [Setup.memAfter, if_pos hj, loaded_rbufDescs]
  by_cases hall : ∀ i < E.threads, Inserted (E.ret r i)
  swap
  · have hnil : E.roundsCalls r = [] := if_neg hall
    simp only [not_forall] at hall
    obtain ⟨j, hj, hnot⟩ := hall
    refine obeys_stop hbeyond (obeys_stop (fun _ _ _ => id) ?_)
    refine obeys_measure_unset h ⟨j, hj, fun hset => hnot ((hbufs j hj).mp hset)⟩ ?_
    rw [length_calls, hnil]
    rfl
  have hset : ∀ j < E.threads, (E.memAfter r E.threads j).bufs = true :=
    fun j hj => (hbufs j hj).mpr (hall j hj)
  by_cases hkeys : r = 0 ∧ ¬ ∀ i < E.threads, Registered (E.ret r i)
  · have hone : E.roundsCalls r = [.start 1] := by
      rw [Setup.roundsCalls, if_pos hall, if_pos hkeys]
    refine obeys_stop hbeyond (obeys_stop (fun _ _ _ => id) ?_)
    refine obeys_measure_unkeyed hagree h (2 ^ 0) hset ?_ (calls_rounds (k := 0) ?_) ?_
    · intro hthere
      exact hkeys.2 fun j hj => (hdescs j hj).mp (hthere hkeys.1 j hj)
    · rw [hone]
      rfl
    · rw [length_calls, hone]
      rfl
  · have hfull : E.roundsCalls r = (List.range numSizes).flatMap roundCalls ++ [.last] := by
      rw [Setup.roundsCalls, if_pos hall, if_neg hkeys]
    refine (gives_rounds hagree h hset (fun hr j hj => (hdescs j hj).mpr ?_) hfull).mono ?_
    · by_contra hnot
      exact hkeys ⟨hr, fun hreg => hnot (hreg j hj)⟩
    · exact fun e _ _ hends he => (hends he).1

end Horizon

end CrayTests.RdmOneSided
