import CrayTests.RdmMain

/-!
# `dom` is closed once

`init_endpoint` closes `dom` when it fails, and `main` goes on. Before the last thread this makes the
next call of `fi_endpoint` use a closed domain. Behind the last thread `main` does not get far enough
to use it: the buffers of that thread are null.
-/

namespace CrayTests.RdmMain
open Kvs RankProgram RdmOneSided
open ObjectLog

variable {E : Setup} {r : Fin 2} {ready : ThreadMem → Prop} {i k : ℕ} {α β : Type}
  {mem : ThreadMem} {log : List Event}

def DomOpen (log : List Event) : Prop := .closed .dom ∉ log

def DomClosed (log : List Event) : Prop := .closed .dom ∈ log ∧ Retired FiObject.dom log

def Unset (k : ℕ) (mem : ThreadMem) : Prop := ∀ i, k ≤ i → (mem i).bufs = false

theorem DomOpen.retired (h : DomOpen log) : Retired FiObject.dom log := retired_of_not_mem h

theorem DomOpen.close (h : DomOpen log) : DomClosed (log ++ [.closed .dom]) :=
  ⟨List.mem_append_right _ (List.mem_singleton_self _), retired_concat_closed h⟩

theorem Unset.mono {j : ℕ} (h : Unset k mem) (hle : k ≤ j) : Unset j mem :=
  fun i hi => h i (hle.trans hi)

/-- Entered with `dom` open, the function keeps it so up to its end, where `R` holds of the result
and the log. Of the threads from `k` on it sets no buffers. -/
def Leaves (E : Setup) (r : Fin 2) (ready : ThreadMem → Prop) (k : ℕ) (p : Job α)
    (R : α → List Event → Prop) : Prop :=
  ∀ mem log, DomOpen log → Unset k mem → (process E r ready).Always r (Retired FiObject.dom)
    (fun a mem log => Unset k mem ∧ R a log) p mem log

/-- The function does not close `dom`, and its result is as `A` says. -/
abbrev Quiet (E : Setup) (r : Fin 2) (ready : ThreadMem → Prop) (k : ℕ) (p : Job α)
    (A : α → Prop) : Prop := Leaves E r ready k p fun a log => A a ∧ DomOpen log

variable {p : Job α} {f : α → Job β} {A : α → Prop} {R : β → List Event → Prop}

theorem Quiet.bind (h : Quiet E r ready k p A) (hf : ∀ a, A a → Leaves E r ready k (f a) R) :
    Leaves E r ready k (p.bind f) R := fun mem log hopen hunset =>
  (h mem log hopen hunset).bind fun a mem' log' _ hend => hf a hend.2.1 mem' log' hend.2.2 hend.1

theorem quiet_pure {a : α} (h : A a) : Quiet E r ready k (.pure a) A :=
  fun _ _ hopen hunset => ⟨hopen.retired, hunset, h, hopen⟩

theorem DomOpen.emits (h : DomOpen log) (E : Setup) (r : Fin 2) (ready : ThreadMem → Prop) {o : Op}
    (x : o.Resp) (hclose : o ≠ .fiClose .dom) :
    DomOpen (log ++ (process E r ready).emits o x) := by
  have hnot : .closed .dom ∉ (process E r ready).emits o x := by
    cases o with
    | fi i call => simp [process]
    | fiClose o =>
      intro hmem
      rw [← Event.closed.inj (List.mem_singleton.mp hmem)] at hclose
      exact hclose rfl
    | _ => exact List.not_mem_nil
  exact fun hmem => (List.mem_append.mp hmem).elim h hnot

theorem bufs_update (mem : ThreadMem) (i : ℕ) {ptd : PerThreadData}
    (h : ptd.bufs = (mem i).bufs) (j : ℕ) :
    (Function.update mem i ptd j).bufs = (mem j).bufs := by
  by_cases hj : j = i
  · subst hj
    rw [Function.update_self, h]
  · rw [Function.update_of_ne hj]

theorem Unset.perform {o : Op} {x : o.Resp} {mem' : ThreadMem} (h : Unset k mem)
    (hset : ∀ i, o = .setBufs i → i < k) (hperform : (process E r ready).perform o mem x mem') :
    Unset k mem' := by
  intro j hj
  rw [← h j hj]
  cases o with
  | fi i call =>
    rw [hperform.2]
    exact bufs_update mem i (register_bufs _ _ _) j
  | storeAddrs i addrs =>
    rw [show mem' = _ from hperform]
    exact bufs_update mem i (by rfl) j
  | setBufs i =>
    rw [show mem' = _ from hperform, Function.update_of_ne]
    have := hset i rfl
    omega
  | storeDescs i descs =>
    rw [show mem' = _ from hperform]
    exact bufs_update mem i (by rfl) j
  | fiClose o => rw [show mem' = _ from hperform]
  | readMr i mr => rw [hperform.2]
  | touchBufs i => rw [hperform.2]
  | runThreads size => rw [hperform.2]
  | abort => exact hperform.elim

theorem quiet_op {o : Op} {next : o.Resp → Job α} (hclose : o ≠ .fiClose .dom)
    (hset : ∀ i, o = .setBufs i → i < k)
    (h : ∀ x, Quiet E r ready k (next x) A) : Quiet E r ready k (.op o next) A :=
  fun _ _ hopen hunset => ⟨hopen.retired, fun x mem' hperform =>
    h x mem' _ (hopen.emits E r ready x hclose) (hunset.perform hset hperform)⟩

theorem quiet_sync {c : Exchange} {next : (Fin 2 → Exchange) → Job α}
    (h : ∀ v, Quiet E r ready k (next v) A) : Quiet E r ready k (.sync c next) A :=
  fun mem log hopen hunset => ⟨hopen.retired, fun v _ => h v mem log hopen hunset⟩

theorem quiet_loop {body : ℕ → Unit → Job Unit}
    (h : ∀ i, Quiet E r ready k (body i ()) fun _ => True) (i count : ℕ) :
    Quiet E r ready k (Program.loop body i count ()) fun _ => True := by
  induction count generalizing i with
  | zero => exact quiet_pure trivial
  | succ count ih => exact (h i).bind fun _ _ => ih (i + 1)

theorem quiet_fi (i : ℕ) (call : FiCall) :
    Quiet E r ready k (fi i call) fun a => a = E.ret r i call := by
  intro mem log hopen hunset
  refine ⟨hopen.retired, fun x mem' hperform => ?_⟩
  have hopen' := hopen.emits E r ready (o := .fi i call) x (by nofun)
  exact ⟨hopen'.retired, hunset.perform (by nofun) hperform, hperform.1, hopen'⟩

theorem quiet_fiClose {o : FiObject} (h : o ≠ .dom) :
    Quiet E r ready k (fiClose o) fun _ => True :=
  quiet_op (fun heq => h (Op.fiClose.inj heq)) (by nofun) fun _ => quiet_pure trivial

theorem quiet_ctpmBarrier (stage : Stage) :
    Quiet E r ready k (ctpmBarrier stage) fun _ => True := quiet_sync fun _ => quiet_pure trivial

theorem quiet_ctpmAllgather (stage : Stage) (src : List Byte) (len : ℕ) :
    Quiet E r ready k (ctpmAllgather stage src len) fun _ => True := by
  have habort : Quiet E r ready k
      (.op Op.abort fun _ => .pure fun _ => [] : Job (Fin 2 → List Byte)) fun _ => True :=
    quiet_op (by nofun) (by nofun) fun _ => quiet_pure trivial
  unfold ctpmAllgather
  split
  · exact habort
  · refine quiet_sync fun v => ?_
    split_ifs
    · exact quiet_pure trivial
    · exact habort

theorem quiet_ite {c : Prop} [Decidable c] {p q : Job α} (hp : c → Quiet E r ready k p A)
    (hq : ¬ c → Quiet E r ready k q A) : Quiet E r ready k (if c then p else q) A := by
  split_ifs with h
  · exact hp h
  · exact hq h

theorem quiet_freeEpRes (i : ℕ) : Quiet E r ready k (freeEpRes i) fun _ => True :=
  (quiet_fiClose (by nofun)).bind fun _ _ => (quiet_fiClose (by nofun)).bind fun _ _ =>
    quiet_fiClose (by nofun)

theorem quiet_finiPerThreadData (i : ℕ) :
    Quiet E r ready k (finiPerThreadData i) fun _ => True := by
  have hrest : Quiet E r ready k (do freeEpRes i; fiClose (.ep i)) fun _ => True :=
    (quiet_freeEpRes i).bind fun _ _ => quiet_fiClose (by nofun)
  have hsecond : Quiet E r ready k (do
      let rMr ← .op (Op.readMr i .rMr) .pure
      if rMr then fiClose (.mr i .rMr)
      freeEpRes i
      fiClose (.ep i)) fun _ => True := by
    refine quiet_op (o := Op.readMr i .rMr) (by nofun) (by nofun) fun rMr => ?_
    cases rMr
    · exact hrest
    · exact (quiet_fiClose (by nofun)).bind fun _ _ => hrest
  refine quiet_op (o := Op.readMr i .lMr) (by nofun) (by nofun) fun lMr => ?_
  cases lMr
  · exact hsecond
  · exact (quiet_fiClose (by nofun)).bind fun _ _ => hsecond

theorem quiet_measure (size : ℕ) : Quiet E r ready k (measure E size) fun _ => True := by
  have htouch (i : ℕ) : Quiet E r ready k (.op (Op.touchBufs i) .pure : Job Unit) fun _ => True :=
    quiet_op (by nofun) (by nofun) fun _ => quiet_pure trivial
  refine (quiet_loop htouch 0 E.threads).bind fun _ _ => ?_
  refine (quiet_ctpmBarrier _).bind fun _ _ => ?_
  exact quiet_op (o := Op.runThreads size) (by nofun) (by nofun) fun _ => quiet_ctpmBarrier _

/-- A check of a return value, which is 0 exactly when `P`. -/
theorem leaves_check {p succ : Job ℤ} {fail : ℤ → Job ℤ} {P : Prop} {R : ℤ → List Event → Prop}
    (hp : Quiet E r ready k p fun a => a = 0 ↔ P)
    (hfail : ¬ P → ∀ a, a ≠ 0 → Leaves E r ready k (fail a) R)
    (hsucc : P → Leaves E r ready k succ R) :
    Leaves E r ready k (p.bind fun ret => if ret ≠ 0 then fail ret else succ) R := by
  refine hp.bind fun a ha => ?_
  by_cases hzero : a = 0
  · rw [if_neg (not_not_intro hzero)]
    exact hsucc (ha.mp hzero)
  · rw [if_pos hzero]
    exact hfail (fun h => hzero (ha.mpr h)) a hzero

theorem Quiet.mono {B : α → Prop} (h : Quiet E r ready k p A) (hAB : ∀ a, A a → B a) :
    Quiet E r ready k p B := fun mem log hopen hunset =>
  (h mem log hopen hunset).mono fun a _ _ hend => ⟨hend.1, hAB a hend.2.1, hend.2.2⟩

theorem returns_fi (i : ℕ) (call : FiCall) :
    Quiet E r ready k (fi i call) fun a => a = 0 ↔ E.ret r i call = 0 :=
  (quiet_fi i call).mono fun _ ha => by rw [ha]

theorem returns_allocEpRes (i : ℕ) : Quiet E r ready k (allocEpRes i) fun a => a = 0 ↔
    E.ret r i .fiCqOpenScq = 0 ∧ E.ret r i .fiCqOpenRcq = 0 ∧ E.ret r i .fiAvOpen = 0 := by
  refine leaves_check (returns_fi i _) (fun h a ha => quiet_pure ?_) fun hscq => ?_
  · exact iff_of_false ha fun hall => h hall.1
  refine leaves_check (returns_fi i _) (fun h a ha => ?_) fun hrcq => ?_
  · exact (quiet_fiClose (by nofun)).bind fun _ _ =>
      quiet_pure (iff_of_false ha fun hall => h hall.2.1)
  refine leaves_check (returns_fi i _) (fun h a ha => ?_) fun hav => ?_
  · exact (quiet_fiClose (by nofun)).bind fun _ _ => (quiet_fiClose (by nofun)).bind fun _ _ =>
      quiet_pure (iff_of_false ha fun hall => h hall.2.2)
  exact quiet_pure (iff_of_true rfl ⟨hscq, hrcq, hav⟩)

theorem returns_bindEpRes (i : ℕ) : Quiet E r ready k (bindEpRes i) fun a => a = 0 ↔
    E.ret r i .fiEpBindScq = 0 ∧ E.ret r i .fiEpBindRcq = 0 ∧ E.ret r i .fiEpBindAv = 0 ∧
      E.ret r i .fiEnable = 0 := by
  refine leaves_check (returns_fi i _) (fun h a ha => quiet_pure ?_) fun hscq => ?_
  · exact iff_of_false ha fun hall => h hall.1
  refine leaves_check (returns_fi i _) (fun h a ha => quiet_pure ?_) fun hrcq => ?_
  · exact iff_of_false ha fun hall => h hall.2.1
  refine leaves_check (returns_fi i _) (fun h a ha => quiet_pure ?_) fun hav => ?_
  · exact iff_of_false ha fun hall => h hall.2.2.1
  refine (returns_fi i _).mono fun a ha => ?_
  rw [ha, and_iff_right hscq, and_iff_right hrcq, and_iff_right hav]

theorem leaves_closeDom {a : ℤ} {R : ℤ → List Event → Prop} (h : ∀ log, DomClosed log → R a log) :
    Leaves E r ready k (do fiClose .dom; pure a) R := by
  intro mem log hopen hunset
  refine ⟨hopen.retired, fun x mem' hperform => ?_⟩
  exact ⟨hopen.close.2, hunset.perform (o := Op.fiClose .dom) (by nofun) hperform,
    h _ hopen.close⟩

/-- When a call of `init_endpoint` fails, `dom` is closed. -/
theorem leaves_initEndpoint (i : ℕ) : Leaves E r ready k (initEndpoint i) fun a log =>
    (a = 0 ∧ Opened (E.ret r i) ∧ DomOpen log) ∨
      (a ≠ 0 ∧ ¬ Opened (E.ret r i) ∧ DomClosed log) := by
  refine leaves_check (returns_fi i _) (fun h a ha => ?_) fun hendpoint => ?_
  · exact leaves_closeDom fun log hlog => .inr ⟨ha, fun hall => h hall.1, hlog⟩
  refine leaves_check (returns_allocEpRes i) (fun h a ha => ?_) fun halloc => ?_
  · refine (quiet_fiClose (by nofun)).bind fun _ _ => leaves_closeDom fun log hlog => ?_
    exact .inr ⟨ha, fun hall => h ⟨hall.2.1, hall.2.2.1, hall.2.2.2.1⟩, hlog⟩
  refine leaves_check (returns_bindEpRes i) (fun h a ha => ?_) fun hbind => ?_
  · refine (quiet_freeEpRes i).bind fun _ _ => (quiet_fiClose (by nofun)).bind fun _ _ =>
      leaves_closeDom fun log hlog => ?_
    exact .inr ⟨ha, fun hall => h hall.2.2.2.2, hlog⟩
  exact fun mem log hopen hunset => ⟨hopen.retired, hunset, .inl
    ⟨rfl, ⟨hendpoint, halloc.1, halloc.2.1, halloc.2.2, hbind⟩, hopen⟩⟩

/-- What the initialisation of a thread does in both programs. -/
structure Initialises (E : Setup) (r : Fin 2) (ready : ThreadMem → Prop) (init : ℕ → Job ℤ) :
    Prop where
  opened : ∀ i, Opened (E.ret r i) → Quiet E r ready (i + 1) (init i) fun _ => True
  failed : ∀ i, ¬ Opened (E.ret r i) → Leaves E r ready i (init i) fun _ log => DomClosed log
  canEnd : ∀ i, (process E r ready).CanEnd r (init i)
  first : ∀ i, ∃ next, init i = .op (Op.fi i .fiEndpoint) next

theorem canEnd_op {o : Op} (hperform : ∀ mem, ∃ x mem', (process E r ready).perform o mem x mem') :
    (process E r ready).CanEnd r (.op o .pure : Job o.Resp) := .op hperform fun x => .pure x

theorem canEnd_fi (i : ℕ) (call : FiCall) : (process E r ready).CanEnd r (fi i call) :=
  canEnd_op fun _ => ⟨_, _, rfl, rfl⟩

theorem canEnd_fiClose (o : FiObject) : (process E r ready).CanEnd r (fiClose o) :=
  canEnd_op fun _ => ⟨(), _, rfl⟩

theorem canEnd_check {p succ : Job ℤ} {fail : ℤ → Job ℤ} (hp : (process E r ready).CanEnd r p)
    (hfail : ∀ a, (process E r ready).CanEnd r (fail a))
    (hsucc : (process E r ready).CanEnd r succ) : (process E r ready).CanEnd r
      (p.bind fun ret => if ret ≠ 0 then fail ret else succ) := by
  refine hp.bind fun a => ?_
  split_ifs
  · exact hfail a
  · exact hsucc

theorem canEnd_allocEpRes (i : ℕ) : (process E r ready).CanEnd r (allocEpRes i) := by
  refine canEnd_check (canEnd_fi i _) .pure ?_
  refine canEnd_check (canEnd_fi i _) (fun a => (canEnd_fiClose _).bind fun _ => .pure a) ?_
  refine canEnd_check (canEnd_fi i _) (fun a => ?_) (.pure 0)
  exact (canEnd_fiClose _).bind fun _ => (canEnd_fiClose _).bind fun _ => .pure a

theorem canEnd_bindEpRes (i : ℕ) : (process E r ready).CanEnd r (bindEpRes i) := by
  refine canEnd_check (canEnd_fi i _) .pure ?_
  refine canEnd_check (canEnd_fi i _) .pure ?_
  exact canEnd_check (canEnd_fi i _) .pure (canEnd_fi i _)

theorem canEnd_initEndpoint (i : ℕ) : (process E r ready).CanEnd r (initEndpoint i) := by
  have hdom (a : ℤ) : (process E r ready).CanEnd r (do fiClose .dom; pure a : Job ℤ) :=
    (canEnd_fiClose _).bind fun _ => .pure a
  have hep (a : ℤ) : (process E r ready).CanEnd r
      (do fiClose (.ep i); fiClose .dom; pure a : Job ℤ) :=
    (canEnd_fiClose _).bind fun _ => hdom a
  refine canEnd_check (canEnd_fi i _) hdom ?_
  refine canEnd_check (canEnd_allocEpRes i) hep ?_
  refine canEnd_check (canEnd_bindEpRes i) (fun a => ?_) (.pure 0)
  refine Process.CanEnd.bind ?_ fun _ => hep a
  exact (canEnd_fiClose _).bind fun _ => (canEnd_fiClose _).bind fun _ => canEnd_fiClose _

theorem canEnd_ctpmAllgather (stage : Stage) {src : List Byte} {len : ℕ} (hlen : src.length = len)
    (hlt : len < 2 ^ 30) : (process E r ready).CanEnd r (ctpmAllgather stage src len) := by
  subst hlen
  unfold ctpmAllgather
  rw [List.take_length, storedValue_encodeChars hlt]
  -- the other rank may bring the same
  refine .sync (fun _ => ⟨stage, src.length, some (encodeChars src)⟩) rfl ?_
  rw [if_pos fun _ => by rw [received_encodeChars stage hlt]; rfl]
  exact .pure _

theorem canEnd_initAv (i : ℕ) : (process E r ready).CanEnd r (initAv E r i) := by
  refine (canEnd_fi i _).bind fun _ => canEnd_check (canEnd_fi i _) .pure ?_
  refine (canEnd_ctpmAllgather _ (E.length_name r i) E.addrlen_lt).bind fun addrs => ?_
  refine .op (fun _ => ⟨(), _, rfl⟩) fun _ => (canEnd_fi i _).bind fun a => ?_
  split_ifs
  · exact .pure a
  · exact .pure 0

theorem quiet_initAv (i : ℕ) : Quiet E r ready k (initAv E r i) fun _ => True := by
  refine (quiet_fi i _).bind fun _ _ => (quiet_fi i _).bind fun a _ => ?_
  refine quiet_ite (fun _ => quiet_pure trivial) fun _ => ?_
  refine (quiet_ctpmAllgather _ _ _).bind fun addrs _ => ?_
  refine quiet_op (o := Op.storeAddrs i addrs) (by nofun) (by nofun) fun _ => ?_
  refine (quiet_fi i _).bind fun a _ => ?_
  exact quiet_ite (fun _ => quiet_pure trivial) fun _ => quiet_pure trivial

/-- After `init_endpoint` a thread goes on with what leaves `dom` alone. -/
theorem initialises {init more : ℕ → Job ℤ}
    (hinit : ∀ i, init i = (initEndpoint i).bind fun ret => if ret ≠ 0 then .pure ret else more i)
    (hmore : ∀ i, Quiet E r ready (i + 1) (more i) fun _ => True)
    (hend : ∀ i, (process E r ready).CanEnd r (more i)) : Initialises E r ready init where
  opened i h mem log hopen hunset := by
    rw [hinit]
    refine (leaves_initEndpoint i mem log hopen hunset).bind fun a mem' log' _ hres => ?_
    obtain ⟨hunset', ⟨rfl, -, hopen'⟩ | ⟨-, hnot, -⟩⟩ := hres
    · exact hmore i mem' log' hopen' hunset'
    · exact absurd h hnot
  failed i h mem log hopen hunset := by
    rw [hinit]
    refine (leaves_initEndpoint i mem log hopen hunset).bind fun a mem' log' _ hres => ?_
    obtain ⟨hunset', ⟨-, hall, -⟩ | ⟨hne, -, hclosed⟩⟩ := hres
    · exact absurd hall h
    · rw [if_pos hne]
      exact ⟨hclosed.2, hunset', hclosed⟩
  canEnd i := by
    rw [hinit]
    exact canEnd_check (canEnd_initEndpoint i) .pure (hend i)
  first i := by
    rw [hinit]
    exact ⟨_, rfl⟩

theorem initialises_oneSided : Initialises E r ready (RdmOneSided.initPerThreadData E r) := by
  refine initialises (fun i => rfl) (fun i => ?_) fun i => ?_
  · refine (quiet_initAv i).bind fun a _ => quiet_ite (fun _ => quiet_pure trivial) fun _ => ?_
    refine quiet_op (o := Op.setBufs i) (by nofun) ?_ fun _ => ?_
    · intro j hj
      rw [Op.setBufs.inj hj]
      exact Nat.lt_succ_self j
    refine (quiet_fi i _).bind fun a _ => quiet_ite (fun _ => quiet_pure trivial) fun _ => ?_
    refine (quiet_ctpmAllgather _ _ _).bind fun descs _ => ?_
    refine quiet_op (o := Op.storeDescs i descs) (by nofun) (by nofun) fun _ => ?_
    refine (quiet_fi i _).bind fun a _ => ?_
    exact quiet_ite (fun _ => quiet_pure trivial) fun _ => quiet_pure trivial
  · refine canEnd_check (canEnd_initAv i) .pure ?_
    refine .op (fun _ => ⟨(), _, rfl⟩) fun _ => ?_
    refine canEnd_check (canEnd_fi i _) (fun _ => .pure (-1)) ?_
    refine (canEnd_ctpmAllgather _ (E.length_bufDesc r i) (by decide)).bind fun descs => ?_
    refine .op (fun _ => ⟨(), _, rfl⟩) fun _ => ?_
    exact canEnd_check (canEnd_fi i _) (fun _ => .pure (-1)) (.pure 0)

theorem initialises_pingpong : Initialises E r ready (RdmPingpong.initPerThreadData E r) := by
  refine initialises (fun i => rfl) (fun i => ?_) fun i => ?_
  · refine (quiet_initAv i).bind fun a _ => quiet_ite (fun _ => quiet_pure trivial) fun _ => ?_
    refine quiet_op (o := Op.setBufs i) (by nofun) ?_ fun _ => quiet_pure trivial
    intro j hj
    rw [Op.setBufs.inj hj]
    exact Nat.lt_succ_self j
  · refine canEnd_check (canEnd_initAv i) .pure ?_
    exact .op (fun _ => ⟨(), _, rfl⟩) fun _ => .pure 0

def initThreads (init : ℕ → Job ℤ) (count : ℕ) : Job Unit :=
  Program.loop (fun i _ => do
    let _ ← init i
    pure ()) 0 count ()

section Threads

variable {init : ℕ → Job ℤ} (hinit : Initialises E r ready init)

include hinit

theorem Initialises.thread (h : Opened (E.ret r k)) (hopen : DomOpen log) (hunset : Unset k mem) :
    (process E r ready).Always r (Retired FiObject.dom)
      (fun _ mem log => Unset (k + 1) mem ∧ DomOpen log)
      (do let _ ← init k; pure () : Job Unit) mem log := by
  refine (hinit.opened k h mem log hopen (hunset.mono k.le_succ)).bind fun _ _ _ hret hend => ?_
  exact ⟨hret, hend.1, hend.2.2⟩

theorem Initialises.thread_failed (h : ¬ Opened (E.ret r k)) (hopen : DomOpen log)
    (hunset : Unset k mem) : (process E r ready).Always r (Retired FiObject.dom)
      (fun _ mem log => Unset k mem ∧ DomClosed log) (do let _ ← init k; pure () : Job Unit) mem
      log :=
  (hinit.failed k h mem log hopen hunset).bind fun _ _ _ hret hend => ⟨hret, hend⟩

theorem Initialises.threads (count : ℕ) (h : ∀ i < count, Opened (E.ret r i))
    (hopen : DomOpen log) : (process E r ready).Always r (Retired FiObject.dom)
      (fun _ mem log => Unset count mem ∧ DomOpen log) (initThreads init count) (fun _ => {})
      log := by
  refine Process.Always.loop (fun k _ mem log => Unset k mem ∧ DomOpen log) ?_ hopen.retired
    ⟨fun _ _ => rfl, hopen⟩
  intro k hk _ mem log _ hinv
  rw [Nat.zero_add]
  exact hinit.thread (h k hk) hinv.2 hinv.1

/-- The first thread that fails closes `dom`. -/
theorem Initialises.threads_failed (hbefore : ∀ i < k, Opened (E.ret r i))
    (hnot : ¬ Opened (E.ret r k)) (hopen : DomOpen log) :
    (process E r ready).Always r (Retired FiObject.dom)
      (fun _ mem log => Unset k mem ∧ DomClosed log) (initThreads init (k + 1)) (fun _ => {})
      log := by
  rw [initThreads, Program.loop_add]
  refine (hinit.threads k hbefore hopen).bind fun _ mem log _ h => ?_
  rw [Nat.zero_add]
  exact (hinit.thread_failed hnot h.2 h.1).bind fun _ _ _ hret h => ⟨hret, h⟩

theorem Initialises.canEnd_threads (count : ℕ) :
    (process E r ready).CanEnd r (initThreads init count) :=
  .loop (fun i _ => (hinit.canEnd i).bind fun _ => .pure ()) 0 count ()

end Threads

/-- `main` after `init_fabric`: the threads, the rounds of the test, and what comes after them. -/
def mainJob (E : Setup) (init : ℕ → Job ℤ) (rounds : ℕ) (finish : Job Unit) : Job Unit := do
  initThreads init E.threads
  Program.loop (fun k _ => measure E (2 ^ k)) 0 rounds ()
  finish

/-- No round is finished when the buffers of a thread are null. -/
theorem always_measure_unset {size : ℕ} (hk : k < E.threads) (hretired : Retired FiObject.dom log)
    (hunset : Unset k mem) : (process E r ready).Always r (Retired FiObject.dom)
      (fun _ _ _ => False) (measure E size) mem log := by
  have htouch : (process E r ready).Always r (Retired FiObject.dom) (fun _ _ _ => False)
      (Program.loop (fun i _ => .op (Op.touchBufs i) .pure) 0 E.threads ()) mem log := by
    refine (Process.Always.loop (fun j _ mem _ => j ≤ k ∧ Unset k mem) ?_ hretired
      ⟨Nat.zero_le k, hunset⟩).mono fun _ _ _ h => absurd h.1 hk.not_ge
    intro j _ _ mem log hretired hinv
    refine ⟨hretired, fun x mem' hperform => ?_⟩
    obtain ⟨hset, rfl⟩ := hperform
    rw [Nat.zero_add] at hset
    refine ⟨by simpa [process] using hretired, ?_, hinv.2⟩
    -- the buffers of thread `k` are not there to be touched
    refine lt_of_le_of_ne hinv.1 fun heq => ?_
    rw [heq, hinv.2 k le_rfl] at hset
    cases hset
  exact htouch.bind fun _ _ _ _ h => h.elim

section MainJob

variable {init : ℕ → Job ℤ} (hinit : Initialises E r ready init) {rounds : ℕ} {finish : Job Unit}

include hinit

/-- When no thread but the last fails, `dom` is closed once. -/
theorem Initialises.always_mainJob (rounds : ℕ) (hrounds : rounds ≠ 0)
    (hfinish : Leaves E r ready E.threads finish fun _ _ => True)
    (hlast : ∀ i, i + 1 < E.threads → Opened (E.ret r i)) (hopen : DomOpen log) :
    (process E r ready).Always r (Retired FiObject.dom) (fun _ _ _ => True)
      (mainJob E init rounds finish) (fun _ => {}) log := by
  by_cases hall : ∀ i < E.threads, Opened (E.ret r i)
  · refine (hinit.threads E.threads hall hopen).bind fun _ mem log _ h => ?_
    have hloop : Quiet E r ready E.threads
        (Program.loop (fun k _ => measure E (2 ^ k)) 0 rounds ()) fun _ => True :=
      quiet_loop (fun k => quiet_measure (2 ^ k)) 0 rounds
    refine (hloop mem log h.2 h.1).bind fun _ mem log _ h => ?_
    exact (hfinish mem log h.2.2 h.1).mono fun _ _ _ _ => trivial
  · simp only [not_forall] at hall
    obtain ⟨k, hk, hnot⟩ := hall
    obtain hthreads : E.threads = k + 1 := by
      by_contra hne
      exact hnot (hlast k (by omega))
    obtain ⟨rounds, rfl⟩ := Nat.exists_eq_succ_of_ne_zero hrounds
    have hthread := hinit.threads_failed (fun i hi => hlast i (by omega)) hnot hopen
    rw [← hthreads] at hthread
    refine hthread.bind fun _ mem log hret h => ?_
    have hloop : (process E r ready).Always r (Retired FiObject.dom) (fun _ _ _ => False)
        (Program.loop (fun k _ => measure E (2 ^ k)) 0 (rounds + 1) ()) mem log :=
      (always_measure_unset hk hret h.1).bind fun _ _ _ _ h => h.elim
    exact hloop.bind fun _ _ _ _ h => h.elim

/-- When a thread before the last fails, the next one uses `dom` after it has been closed. -/
theorem Initialises.exists_used_closed (rounds : ℕ) (finish : Job Unit) (hk : k + 1 < E.threads)
    (hbefore : ∀ i < k, Opened (E.ret r i)) (hnot : ¬ Opened (E.ret r k)) (hopen : DomOpen log) :
    ∃ s, (process E r ready).Run r ⟨mainJob E init rounds finish, fun _ => {}, log⟩ s ∧
      ¬ Retired FiObject.dom s.log := by
  obtain ⟨_, mem, log', hrun, -, hclosed⟩ := (hinit.canEnd_threads (k + 1)).exists_always
    (hinit.threads_failed hbefore hnot hopen)
  obtain ⟨c, hc⟩ : ∃ c, E.threads = k + 1 + (c + 1) := ⟨E.threads - (k + 2), by omega⟩
  let body : ℕ → Unit → Job Unit := fun i _ => do
    let _ ← init i
    pure ()
  let tests : Unit → Job Unit := fun _ => do
    Program.loop (fun k _ => measure E (2 ^ k)) 0 rounds ()
    finish
  have hcode : mainJob E init rounds finish =
      ((initThreads init (k + 1)).bind (Program.loop body (k + 1) (c + 1))).bind tests := by
    rw [mainJob, hc, initThreads, Program.loop_add, Nat.zero_add]
    rfl
  have hthreads := Process.Run.bind (f := tests)
    (Process.Run.bind (f := Program.loop body (k + 1) (c + 1)) hrun)
  -- the next thread opens its endpoint on `dom`
  obtain ⟨next, hnext⟩ := hinit.first (k + 1)
  obtain ⟨x, mem', hperform⟩ : ∃ x mem', (process E r ready).perform
      (Op.fi (k + 1) .fiEndpoint) mem x mem' := ⟨_, _, rfl, rfl⟩
  have hstep : (process E r ready).Step r
      ⟨((body (k + 1) ()).bind (Program.loop body (k + 1 + 1) c)).bind tests, mem, log'⟩
      ⟨(((next x).bind fun _ => .pure ()).bind (Program.loop body (k + 1 + 1) c)).bind tests, mem',
        log' ++ [.used .dom]⟩ := by
    rw [show body (k + 1) () = (init (k + 1)).bind fun _ => .pure () from rfl, hnext]
    exact .op _ _ x hperform
  rw [hcode]
  refine ⟨_, hthreads.tail hstep, ?_⟩
  exact not_retired_of_used_after hclosed.1 (List.mem_singleton_self _)

end MainJob

/-- The end of `main` in both programs. -/
theorem leaves_closes : Leaves E r ready k (do
    Program.loop (fun i _ => finiPerThreadData i) 0 E.threads ()
    fiClose .dom
    fiClose .fab
    ctpmBarrier .last : Job Unit) fun _ _ => True := by
  refine (quiet_loop (fun i => quiet_finiPerThreadData i) 0 E.threads).bind fun _ _ => ?_
  intro mem log hopen hunset
  refine ⟨hopen.retired, fun _ mem' hdom => ?_⟩
  have hretired := hopen.close.2
  have hretired' : Retired FiObject.dom (log ++ [.closed .dom] ++ [.closed .fab]) :=
    hretired.append (by simp) (by simp)
  obtain rfl : mem' = mem := hdom
  refine ⟨hretired, fun _ mem'' hfab => ?_⟩
  obtain rfl : mem'' = mem' := hfab
  exact ⟨hretired', fun _ _ => ⟨hretired', hunset, trivial⟩⟩

section Main

variable {ret : FabricCall → ℤ} {P : Process jobInterface ThreadMem Event}

theorem mainProcess_extends : Process.Extends jobEmbedding (mainProcess ret P) P where
  back_coll _ := rfl
  perform_iff o mem x mem' :=
    ⟨fun h => ⟨x, rfl, h⟩, fun ⟨_, hx, h⟩ => by rw [← hx]; exact h⟩
  emits_eq _ _ := rfl

theorem forall_fabricCall : (∀ call, ret call = 0) ↔
    ret .fiGetinfo = 0 ∧ ret .fiFabric = 0 ∧ ret .fiDomain = 0 := by
  constructor
  · exact fun h => ⟨h _, h _, h _⟩
  · rintro ⟨hinfo, hfabric, hdomain⟩ (_ | _ | _) <;> assumption

theorem always_fabric (call : FabricCall) (hopen : DomOpen log) :
    (mainProcess ret (process E r ready)).Always r (Retired FiObject.dom)
      (fun a mem' log' => a = ret call ∧ mem' = mem ∧ DomOpen log') (fabric call) mem log := by
  have hopen' : DomOpen (log ++ call.passed.map .used) := by
    refine fun hmem => (List.mem_append.mp hmem).elim hopen ?_
    simp
  refine ⟨hopen.retired, fun x mem' hperform => ?_⟩
  exact ⟨hopen'.retired, hperform.1, hperform.2, hopen'⟩

theorem always_initFabric (E : Setup) (r : Fin 2) (ready : ThreadMem → Prop)
    (ret : FabricCall → ℤ) (mem : ThreadMem) (hopen : DomOpen log) :
    (mainProcess ret (process E r ready)).Always r (Retired FiObject.dom)
      (fun a mem' log' => (a = 0 ↔ ∀ call, ret call = 0) ∧ mem' = mem ∧ DomOpen log') initFabric mem
      log := by
  simp only [forall_fabricCall]
  refine (always_fabric .fiGetinfo hopen).bind ?_
  rintro _ _ log - ⟨rfl, rfl, hopen⟩
  by_cases hinfo : ret .fiGetinfo = 0
  swap
  · rw [if_pos hinfo]
    exact ⟨hopen.retired, iff_of_false hinfo fun h => hinfo h.1, rfl, hopen⟩
  rw [if_neg (not_not_intro hinfo)]
  refine (always_fabric .fiFabric hopen).bind ?_
  rintro _ _ log - ⟨rfl, rfl, hopen⟩
  by_cases hfabric : ret .fiFabric = 0
  swap
  · rw [if_pos hfabric]
    exact ⟨hopen.retired, iff_of_false hfabric fun h => hfabric h.2.1, rfl, hopen⟩
  rw [if_neg (not_not_intro hfabric)]
  refine (always_fabric .fiDomain hopen).bind ?_
  rintro _ _ log - ⟨rfl, rfl, hopen⟩
  by_cases hdomain : ret .fiDomain = 0
  swap
  · rw [if_pos hdomain]
    refine ⟨hopen.retired, fun _ mem' hclose => ?_⟩
    obtain rfl : mem' = _ := hclose
    have hopen' := hopen.emits E r ready (o := .fiClose .fab) () (by nofun)
    exact ⟨hopen'.retired, iff_of_false hdomain fun h => hdomain h.2.2, rfl, hopen'⟩
  rw [if_neg (not_not_intro hdomain)]
  exact ⟨hopen.retired, iff_of_true rfl ⟨hinfo, hfabric, hdomain⟩, rfl, hopen⟩

theorem canEnd_initFabric : (mainProcess ret (process E r ready)).CanEnd r initFabric := by
  have hfabric (call : FabricCall) :
      (mainProcess ret (process E r ready)).CanEnd r (fabric call) :=
    .op (fun _ => ⟨_, _, rfl, rfl⟩) fun x => .pure x
  refine (hfabric .fiGetinfo).bind fun a => ?_
  split_ifs
  · exact .pure a
  refine (hfabric .fiFabric).bind fun a => ?_
  split_ifs
  · exact .pure a
  refine (hfabric .fiDomain).bind fun a => ?_
  split_ifs
  · exact .op (fun _ => ⟨(), _, rfl⟩) fun _ => .pure a
  · exact .pure 0

variable {init : ℕ → Job ℤ} (hinit : Initialises E r ready init) {rounds : ℕ} {finish : Job Unit}

include hinit

theorem Initialises.domRetired (rounds : ℕ) (hrounds : rounds ≠ 0)
    (hfinish : Leaves E r ready E.threads finish fun _ _ => True)
    (h : (∀ call, ret call = 0) → ∀ i, i + 1 < E.threads → Opened (E.ret r i)) :
    DomRetired (mainProcess ret (process E r ready)) r (main (mainJob E init rounds finish)) := by
  have halways : (mainProcess ret (process E r ready)).Always r (Retired FiObject.dom)
      (fun _ _ _ => True) (main (mainJob E init rounds finish)) (fun _ => {}) [] := by
    refine (always_initFabric E r ready ret _ List.not_mem_nil).bind ?_
    rintro a _ log - ⟨ha, rfl, hopen⟩
    split_ifs with hzero
    · exact ⟨hopen.retired, trivial⟩
    · refine Process.Always.embed mainProcess_extends ?_
      exact hinit.always_mainJob rounds hrounds hfinish (h (ha.mp (not_not.mp hzero))) hopen
  exact fun s hrun => (halways.run hrun).now

theorem Initialises.not_domRetired (rounds : ℕ) (finish : Job Unit)
    (hret : ∀ call, ret call = 0) (hk : k + 1 < E.threads) (hnot : ¬ Opened (E.ret r k)) :
    ¬ DomRetired (mainProcess ret (process E r ready)) r (main (mainJob E init rounds finish)) := by
  intro h
  -- the first thread that fails
  classical
  have hex : ∃ k, ¬ Opened (E.ret r k) := ⟨k, hnot⟩
  have hfirst : Nat.find hex ≤ k := Nat.find_min' hex hnot
  have halways := always_initFabric E r ready ret (fun _ => {}) List.not_mem_nil
  obtain ⟨a, _, log, hfabric, ha, rfl, hopen⟩ := canEnd_initFabric.exists_always halways
  obtain ⟨s, hrun, hs⟩ := hinit.exists_used_closed rounds finish
    (by omega) (fun i hi => not_not.mp (Nat.find_min hex hi)) (Nat.find_spec hex) hopen
  obtain rfl : a = 0 := ha.mpr hret
  let afterFabric : ℤ → Main Unit := fun ret =>
    if ret ≠ 0 then .pure () else (mainJob E init rounds finish).embed jobEmbedding
  have hzero : afterFabric 0 = (mainJob E init rounds finish).embed jobEmbedding :=
    if_neg (not_not_intro rfl)
  have hstart := Process.Run.bind (f := afterFabric) hfabric
  simp only [Program.bind, hzero] at hstart
  exact hs (h _ (hstart.trans (hrun.embed mainProcess_extends)))

theorem Initialises.domRetired_iff (rounds : ℕ) (hrounds : rounds ≠ 0)
    (hfinish : Leaves E r ready E.threads finish fun _ _ => True) :
    DomRetired (mainProcess ret (process E r ready)) r (main (mainJob E init rounds finish)) ↔
      ((∀ call, ret call = 0) → ∀ i, i + 1 < E.threads → Opened (E.ret r i)) := by
  refine ⟨fun h hret i hi => ?_, hinit.domRetired rounds hrounds hfinish⟩
  by_contra hnot
  exact hinit.not_domRetired rounds finish hret hi hnot h

end Main

/-- In both programs `dom` is closed once, and not used afterwards, exactly when no thread but the
last fails to open its endpoint. -/
theorem main_domRetired_iff (E : Setup) (r : Fin 2) (ret : FabricCall → ℤ) :
    (DomRetired (mainProcess ret (oneSided E r)) r (main (RdmOneSided.main E r)) ↔
      ((∀ call, ret call = 0) → ∀ i, i + 1 < E.threads → Opened (E.ret r i))) ∧
    (DomRetired (mainProcess ret (pingpong E r)) r (main (RdmPingpong.main E r)) ↔
      ((∀ call, ret call = 0) → ∀ i, i + 1 < E.threads → Opened (E.ret r i))) := by
  constructor
  · exact initialises_oneSided.domRetired_iff RdmOneSided.numSizes (by decide)
      leaves_closes
  · exact initialises_pingpong.domRetired_iff RdmPingpong.numSizes (by decide)
      ((quiet_ctpmBarrier .last).bind fun _ _ => leaves_closes)

def endpointFails : Setup where
  threads := 2
  ret _ i call := if i = 0 ∧ call = .fiEndpoint then -12 else if call = .fiAvInsert then 2 else 0
  addrlen := 2
  name r i := [BitVec.ofNat 8 r, BitVec.ofNat 8 i]
  bufDesc _ i := List.replicate sizeofBufDesc (BitVec.ofNat 8 i)
  addrlen_lt := by norm_num
  length_name _ _ := rfl
  length_bufDesc _ _ := List.length_replicate

/-- Thread 0 closes the domain that thread 1 opens its endpoint on. -/
theorem not_domRetired_endpointFails :
    ¬ DomRetired (mainProcess (fun _ => 0) (oneSided endpointFails 0)) 0
        (main (RdmOneSided.main endpointFails 0)) ∧
      ¬ DomRetired (mainProcess (fun _ => 0) (pingpong endpointFails 0)) 0
        (main (RdmPingpong.main endpointFails 0)) := by
  have hlt : 0 + 1 < endpointFails.threads := by decide
  have hfails : ¬ Opened (endpointFails.ret 0 0) := by decide
  constructor
  · exact initialises_oneSided.not_domRetired RdmOneSided.numSizes _ (fun _ => rfl) hlt
      hfails
  · exact initialises_pingpong.not_domRetired RdmPingpong.numSizes _ (fun _ => rfl) hlt
      hfails

/-- The same for the ranks of the job of two. -/
theorem retired_of_jobReachable {s : JobState E} (hs : JobReachable E s)
    (h : ∀ i, i + 1 < E.threads → Opened (E.ret r i)) :
    Retired FiObject.dom ((oneSided E r).logOf (s.proc r).done) := by
  have halways : (oneSided E r).Always r (Retired FiObject.dom) (fun _ _ _ => True)
      (RdmOneSided.main E r) (fun _ => {}) [] :=
    initialises_oneSided.always_mainJob RdmOneSided.numSizes (by decide) leaves_closes h
      List.not_mem_nil
  exact (halways.run (run_of_jobReachable hs r)).now

end CrayTests.RdmMain
