import CrayTests.OneSidedTest
import CrayTests.PingpongProtocol
import CrayTests.ThreadBarrierWaits

/-!
# Accounts of the endpoints

What the operations of the threads so far say about the memory: every posted operation is under way,
reported or read, every message that was sent has met a receive or waits for one, and a thread is as
many calls into its barrier as it has made.
-/

namespace CrayTests.OneSidedTest

open RankProgram
open PingpongTest (rank peer peer_peer)

variable {threads : ℕ} {E : Setup threads} {mem mem' : Mem threads}
variable {ops : Fin (2 * threads) → List Op} {p q : Fin (2 * threads)} {o : Op} {e : ℕ}

theorem peer_ne (p : Fin (2 * threads)) : peer p ≠ p := by
  intro h
  have hval := congrArg Fin.val h
  unfold peer at hval
  split_ifs at hval with hlt <;> simp only at hval <;> omega

theorem peer_eq_iff : peer p = q ↔ p = peer q := by
  constructor
  · rintro rfl
    exact (peer_peer p).symm
  · rintro rfl
    exact peer_peer q

theorem exists_party (p : Fin (2 * threads)) (u : Fin threads) :
    ∃ q : Fin (2 * threads), rank q = rank p ∧ number q = u := by
  have hu := u.isLt
  by_cases hp : p.val < threads
  · refine ⟨⟨u, by omega⟩, by simp [rank, hp], Fin.ext ?_⟩
    exact Nat.mod_eq_of_lt hu
  · refine ⟨⟨threads + u, by omega⟩, by simp [rank, hp], Fin.ext ?_⟩
    simp [number, Nat.mod_eq_of_lt hu]

theorem party_ext (hrank : rank p = rank q) (hnumber : number p = number q) : p = q := by
  have hmod : p.val % threads = q.val % threads := congrArg Fin.val hnumber
  have hp := p.isLt
  have hq := q.isLt
  apply Fin.ext
  unfold rank at hrank
  split_ifs at hrank with hlt hlt' hlt'
  · rwa [Nat.mod_eq_of_lt hlt, Nat.mod_eq_of_lt hlt'] at hmod
  · rw [Nat.mod_eq_sub_mod (by omega), Nat.mod_eq_of_lt (by omega),
      Nat.mod_eq_sub_mod (a := q.val) (by omega), Nat.mod_eq_of_lt (a := q.val - threads) (by omega)]
      at hmod
    omega

@[simp] theorem setEp_ep (ep : Endpoint) :
    (mem.setEp p ep).ep q = if q = p then ep else mem.ep q := Function.update_apply _ _ _ _

/-- What an endpoint has in common with the one that it replaces, everything has. -/
theorem setEp_same {β : Type} (part : Endpoint → β) {ep : Endpoint}
    (h : part ep = part (mem.ep p)) : part ((mem.setEp p ep).ep q) = part (mem.ep q) := by
  rw [setEp_ep]
  split_ifs with hq
  · rw [h, hq]
  · rfl

@[simp] theorem setEp_tbar (ep : Endpoint) : (mem.setEp p ep).tbar = mem.tbar := rfl

@[simp] theorem setEp_waiter (ep : Endpoint) : (mem.setEp p ep).waiter q = mem.waiter q := rfl

@[simp] theorem stepTbar_ep : (mem.stepTbar p).ep = mem.ep := rfl

theorem stepTbar_waiter_self : (mem.stepTbar p).waiter p =
    (ThreadBarrier.step (mem.tbar (rank p)) (number p)).thread (number p) := by
  simp [Mem.waiter, Mem.stepTbar]

theorem stepTbar_waiter_ne (h : q ≠ p) : (mem.stepTbar p).waiter q = mem.waiter q := by
  unfold Mem.waiter Mem.stepTbar
  dsimp only
  by_cases hrank : rank q = rank p
  · have hnumber : number q ≠ number p := fun hnumber => h (party_ext hrank hnumber)
    rw [hrank, Function.update_self, ThreadBarrier.step_thread_ne _ hnumber]
  · rw [Function.update_of_ne hrank]

def Op.isWrite : Op → Bool
  | .fiWrite _ => true
  | _ => false

structure Balanced (ep : Endpoint) (l : List Op) : Prop where
  scq : l.countP Op.isWrite + l.count .fiSend =
    l.count .readScq + ep.scq + ep.writing + ep.sending
  rcq : l.count .fiRecv = l.count .readRcq + ep.rcq + ep.recvs

structure Accounts (E : Setup threads) (mem : Mem threads)
    (ops : Fin (2 * threads) → List Op) : Prop where
  balanced : ∀ p, Balanced (mem.ep p) (ops p)
  arrived : ∀ p, (ops (peer p)).count .fiSend + (mem.ep p).recvs =
    (mem.ep p).arrived.length + (ops p).count .fiRecv
  flying : E.early = false → ∀ p, (mem.ep p).flying.length ≤ (mem.ep p).writing
  tbar : ∀ r, ThreadBarrier.Reachable (mem.tbar r)
  calls : ∀ p, (mem.waiter p).calls = (ops p).count .callTbarrier

def addOp (ops : Fin (2 * threads) → List Op) (p : Fin (2 * threads)) (o : Op) :
    Fin (2 * threads) → List Op := Function.update ops p (ops p ++ [o])

theorem addOp_apply : addOp ops p o q = if q = p then ops p ++ [o] else ops q :=
  Function.update_apply _ _ _ _

theorem countP_addOp (kind : Op → Bool) :
    (addOp ops p o q).countP kind = (ops q).countP kind + if q = p ∧ kind o then 1 else 0 := by
  rw [addOp_apply]
  by_cases hq : q = p
  · subst hq
    simp [List.countP_append, List.countP_singleton]
  · simp [hq]

theorem count_addOp (x : Op) :
    (addOp ops p o q).count x = (ops q).count x + if q = p ∧ o = x then 1 else 0 := by
  simp only [List.count, countP_addOp, beq_iff_eq]

/-- The memory after a step in which only the endpoint of `p` changed, and not what has arrived. -/
theorem Accounts.setEp (h : Accounts E mem ops) (ep : Endpoint) (l : List Op)
    (hbalanced : Balanced ep l) (hsends : l.count .fiSend = (ops p).count .fiSend)
    (hcalls : l.count .callTbarrier = (ops p).count .callTbarrier)
    (harrived : ep.recvs + (mem.ep p).arrived.length + (ops p).count .fiRecv =
      ep.arrived.length + l.count .fiRecv + (mem.ep p).recvs)
    (hflying : E.early = false → ep.flying.length ≤ ep.writing) :
    Accounts E (mem.setEp p ep) (Function.update ops p l) where
  balanced q := by
    rw [setEp_ep, Function.update_apply]
    split_ifs
    · exact hbalanced
    · exact h.balanced q
  arrived q := by
    have hq := h.arrived q
    rw [setEp_ep, Function.update_apply, Function.update_apply]
    by_cases hqp : q = p
    · subst hqp
      rw [if_neg (peer_ne q), if_pos rfl, if_pos rfl]
      omega
    · rw [if_neg hqp, if_neg hqp]
      split_ifs with hpeer
      · rw [hsends, ← hpeer]
        exact hq
      · exact hq
  flying hearly q := by
    rw [setEp_ep]
    split_ifs
    · exact hflying hearly
    · exact h.flying hearly q
  tbar := h.tbar
  calls q := by
    rw [setEp_waiter, Function.update_apply, h.calls q]
    split_ifs with hq
    · rw [hq, hcalls]
    · rfl

theorem Accounts.stepTbar (h : Accounts E mem ops) (l : List Op)
    (hcalls : ((mem.stepTbar p).waiter p).calls = l.count .callTbarrier)
    (hcount : ∀ x, x ≠ Op.callTbarrier → l.count x = (ops p).count x)
    (hwrites : l.countP Op.isWrite = (ops p).countP Op.isWrite) :
    Accounts E (mem.stepTbar p) (Function.update ops p l) := by
  have hsame (q : Fin (2 * threads)) (x : Op) (hx : x ≠ .callTbarrier) :
      (Function.update ops p l q).count x = (ops q).count x := by
    rw [Function.update_apply]
    split_ifs with hq
    · rw [hcount x hx, hq]
    · rfl
  have hsameWrites (q : Fin (2 * threads)) :
      (Function.update ops p l q).countP Op.isWrite = (ops q).countP Op.isWrite := by
    rw [Function.update_apply]
    split_ifs with hq
    · rw [hwrites, hq]
    · rfl
  exact {
    balanced := fun q => by
      have hq := h.balanced q
      constructor
      · rw [hsameWrites, hsame q _ (by decide), hsame q _ (by decide)]
        exact hq.scq
      · rw [hsame q _ (by decide), hsame q _ (by decide)]
        exact hq.rcq
    arrived := fun q => by
      rw [hsame _ _ (by decide), hsame _ _ (by decide)]
      exact h.arrived q
    flying := h.flying
    tbar := fun r => by
      unfold Mem.stepTbar
      dsimp only
      rw [Function.update_apply]
      split_ifs with hr
      · exact (h.tbar (rank p)).step (number p)
      · exact h.tbar r
    calls := fun q => by
      rw [Function.update_apply]
      split_ifs with hq
      · rw [hq, hcalls]
      · rw [stepTbar_waiter_ne hq, h.calls q] }

/-- The operation posts nothing, reads no queue and does not call. -/
structure Op.Quiet (o : Op) : Prop where
  write : o.isWrite = false
  send : o ≠ .fiSend
  recv : o ≠ .fiRecv
  scq : o ≠ .readScq
  rcq : o ≠ .readRcq
  call : o ≠ .callTbarrier

theorem Accounts.quiet (h : Accounts E mem ops) (ho : o.Quiet) :
    Accounts E mem (addOp ops p o) := by
  obtain ⟨hwrite, hsend, hrecv, hscq, hrcq, hcall⟩ := ho
  have hsame (q : Fin (2 * threads)) (x : Op) (hx : o ≠ x) :
      (addOp ops p o q).count x = (ops q).count x := by simp [count_addOp, hx]
  have hsameWrites (q : Fin (2 * threads)) :
      (addOp ops p o q).countP Op.isWrite = (ops q).countP Op.isWrite := by
    rw [addOp_apply]
    split_ifs with hq
    · simp [hq, hwrite]
    · rfl
  exact {
    balanced := fun q => by
      have hq := h.balanced q
      constructor
      · rw [hsameWrites, hsame q _ hsend, hsame q _ hscq]
        exact hq.scq
      · rw [hsame q _ hrecv, hsame q _ hrcq]
        exact hq.rcq
    arrived := fun q => by
      rw [hsame _ _ hsend, hsame _ _ hrecv]
      exact h.arrived q
    flying := h.flying
    tbar := h.tbar
    calls := fun q => by
      rw [hsame q _ hcall]
      exact h.calls q }

theorem accounts_init (sBuf rBuf : Fin (2 * threads) → Buffer) :
    Accounts E (Mem.init sBuf rBuf) fun _ => [] where
  balanced _ := ⟨rfl, rfl⟩
  arrived _ := rfl
  flying _ _ := le_rfl
  tbar _ := ⟨[], rfl⟩
  calls _ := rfl

theorem Accounts.touch (h : Accounts E mem ops) (size : ℕ) (sBuf rBuf : Buffer) :
    Accounts E (mem.setEp p { mem.ep p with sBuf, rBuf }) (addOp ops p (.touch size)) := by
  have hb := h.balanced p
  refine h.setEp _ _ ⟨?_, ?_⟩ ?_ ?_ ?_ (h.flying · p)
  · simpa [List.count_append, Op.isWrite] using hb.scq
  · simpa [List.count_append] using hb.rcq
  · simp [List.count_append]
  · simp [List.count_append]
  · simp [List.count_append]
    omega

theorem Accounts.fiWrite (h : Accounts E mem ops) (size : ℕ) (bytes : List Char) :
    Accounts E (mem.setEp p { mem.ep p with
      flying := (mem.ep p).flying ++ [bytes], writing := (mem.ep p).writing + 1 })
      (addOp ops p (.fiWrite size)) := by
  have hb := h.balanced p
  refine h.setEp _ _ ⟨?_, ?_⟩ ?_ ?_ ?_ (fun hearly => ?_)
  · have := hb.scq
    simp only [List.count_append, List.countP_append]
    simp [Op.isWrite]
    omega
  · simpa [List.count_append] using hb.rcq
  · simp [List.count_append]
  · simp [List.count_append]
  · simp [List.count_append]
    omega
  · simpa using h.flying hearly p

theorem Accounts.fiSend (h : Accounts E mem ops) (bytes : List Char) :
    Accounts E ((mem.setEp p { mem.ep p with sending := (mem.ep p).sending + 1 }).setEp (peer p)
      { mem.ep (peer p) with arrived := (mem.ep (peer p)).arrived ++ [bytes] })
      (addOp ops p .fiSend) where
  balanced q := by
    have hq := h.balanced q
    rw [setEp_ep, setEp_ep]
    constructor
    · have hscq := hq.scq
      rw [count_addOp, count_addOp, addOp_apply]
      by_cases hqp : q = p
      · subst hqp
        simp [(peer_ne q).symm, Op.isWrite]
        omega
      · by_cases hpeer : q = peer p
        · subst hpeer
          simp [peer_ne p]
          omega
        · simp [hqp, hpeer]
          omega
    · have hrcq := hq.rcq
      rw [count_addOp, count_addOp]
      by_cases hqp : q = p
      · subst hqp
        simpa [(peer_ne q).symm] using hrcq
      · by_cases hpeer : q = peer p
        · subst hpeer
          simpa [peer_ne p] using hrcq
        · simpa [hqp, hpeer] using hrcq
  arrived q := by
    have hq := h.arrived q
    rw [count_addOp, count_addOp, setEp_ep, setEp_ep]
    by_cases hpeer : q = peer p
    · subst hpeer
      simp only [peer_peer] at hq ⊢
      simp [peer_ne p]
      omega
    · have hqpeer : peer q ≠ p := fun heq => hpeer (peer_eq_iff.mp heq)
      by_cases hqp : q = p
      · subst hqp
        simp [(peer_ne q).symm, peer_ne q]
        omega
      · simp [hqp, hpeer, hqpeer]
        omega
  flying hearly q := by
    have hq := h.flying hearly q
    rw [setEp_ep, setEp_ep]
    by_cases hpeer : q = peer p
    · subst hpeer
      simpa using hq
    · by_cases hqp : q = p
      · subst hqp
        simpa [(peer_ne q).symm] using hq
      · simpa [hqp, hpeer] using hq
  tbar := h.tbar
  calls q := by
    rw [count_addOp]
    simpa using h.calls q

theorem Accounts.fiRecv (h : Accounts E mem ops) :
    Accounts E (mem.setEp p { mem.ep p with recvs := (mem.ep p).recvs + 1 })
      (addOp ops p .fiRecv) := by
  have hb := h.balanced p
  refine h.setEp _ _ ⟨?_, ?_⟩ ?_ ?_ ?_ (h.flying · p)
  · simpa [List.count_append, Op.isWrite] using hb.scq
  · have := hb.rcq
    simp [List.count_append]
    omega
  · simp [List.count_append]
  · simp [List.count_append]
  · simp [List.count_append]
    omega

theorem Accounts.readScq (h : Accounts E mem ops) (hscq : 0 < (mem.ep p).scq) :
    Accounts E (mem.setEp p { mem.ep p with scq := (mem.ep p).scq - 1 })
      (addOp ops p .readScq) := by
  have hb := h.balanced p
  refine h.setEp _ _ ⟨?_, ?_⟩ ?_ ?_ ?_ (h.flying · p)
  · have := hb.scq
    simp [List.count_append, Op.isWrite]
    omega
  · simpa [List.count_append] using hb.rcq
  · simp [List.count_append]
  · simp [List.count_append]
  · simp [List.count_append]
    omega

theorem Accounts.readRcq (h : Accounts E mem ops) (hrcq : 0 < (mem.ep p).rcq) :
    Accounts E (mem.setEp p { mem.ep p with rcq := (mem.ep p).rcq - 1 })
      (addOp ops p .readRcq) := by
  have hb := h.balanced p
  refine h.setEp _ _ ⟨?_, ?_⟩ ?_ ?_ ?_ (h.flying · p)
  · simpa [List.count_append, Op.isWrite] using hb.scq
  · have := hb.rcq
    simp [List.count_append]
    omega
  · simp [List.count_append]
  · simp [List.count_append]
  · simp [List.count_append]
    omega

theorem Accounts.perform {x : o.Resp} (h : Accounts E mem ops)
    (hperform : perform E p e o mem x mem') : Accounts E mem' (addOp ops p o) := by
  cases o with
  | touch size =>
    obtain rfl := hperform
    exact h.touch size _ _
  | callTbarrier =>
    obtain ⟨hout, rfl⟩ := hperform
    refine h.stepTbar (ops p ++ [.callTbarrier]) ?_ (fun x hx => ?_) ?_
    · have hcalls := h.calls p
      rw [stepTbar_waiter_self, (ThreadBarrier.calls_call hout).1, List.count_append, ← hcalls]
      rfl
    · simp [List.count_append, hx.symm]
    · simp [Op.isWrite]
  | returnTbarrier =>
    obtain ⟨-, rfl⟩ := hperform
    exact h.quiet ⟨rfl, nofun, nofun, nofun, nofun, nofun⟩
  | getTimeUsec k =>
    obtain ⟨-, rfl⟩ := hperform
    exact h.quiet ⟨rfl, nofun, nofun, nofun, nofun, nofun⟩
  | fiWrite size =>
    obtain rfl := hperform
    exact h.fiWrite size _
  | fiSend =>
    obtain rfl := hperform
    exact h.fiSend _
  | fiRecv =>
    obtain rfl := hperform
    exact h.fiRecv
  | readScq =>
    obtain ⟨hscq, rfl⟩ := hperform
    exact h.readScq hscq
  | readRcq =>
    obtain ⟨hrcq, rfl⟩ := hperform
    exact h.readRcq hrcq
  | fini =>
    obtain rfl := hperform
    exact h.quiet ⟨rfl, nofun, nofun, nofun, nofun, nofun⟩

/-- One endpoint moves on its own. -/
theorem Accounts.move (h : Accounts E mem ops) (ep : Endpoint) (hbalanced : Balanced ep (ops p))
    (harrived : ep.recvs + (mem.ep p).arrived.length = ep.arrived.length + (mem.ep p).recvs)
    (hflying : E.early = false → ep.flying.length ≤ ep.writing) :
    Accounts E (mem.setEp p ep) ops := by
  have hmove := h.setEp ep (ops p) hbalanced rfl rfl (by omega) hflying
  rwa [Function.update_eq_self] at hmove

theorem Accounts.drift (h : Accounts E mem ops) (hdrift : Drift E mem mem') :
    Accounts E mem' ops := by
  cases hdrift with
  | place p bytes hfly =>
    have hmove := h.move (p := p) { mem.ep p with flying := (mem.ep p).flying.erase bytes }
      ⟨(h.balanced p).scq, (h.balanced p).rcq⟩ (Nat.add_comm _ _)
      fun hearly => List.length_erase_le.trans (h.flying hearly p)
    refine hmove.move (p := peer p) _ ⟨(h.balanced (peer p)).scq, (h.balanced (peer p)).rcq⟩ ?_
      (h.flying · (peer p))
    simp [peer_ne p, Nat.add_comm]
  | reportWrite p hwrite hplaced =>
    have hscq := (h.balanced p).scq
    refine h.move _ ⟨?_, (h.balanced p).rcq⟩ (Nat.add_comm _ _) fun hearly => ?_
    · simp only
      omega
    · have hlt := hplaced.resolve_left (by simp [hearly])
      simp only
      omega
  | reportSend p hsend hmet =>
    have hscq := (h.balanced p).scq
    refine h.move _ ⟨?_, (h.balanced p).rcq⟩ (Nat.add_comm _ _) (h.flying · p)
    simp only
    omega
  | meet p bytes rest harrived hrecv =>
    have hrcq := (h.balanced p).rcq
    refine h.move _ ⟨(h.balanced p).scq, ?_⟩ ?_ (h.flying · p)
    · simp only
      omega
    · simp only [harrived, List.length_cons]
      omega
  | tbarrier p hin =>
    have hmove := h.stepTbar (p := p) (ops p) ?_ (fun _ _ => rfl) rfl
    · rwa [Function.update_eq_self] at hmove
    · rw [stepTbar_waiter_self, ThreadBarrier.calls_inside hin]
      exact h.calls p

end CrayTests.OneSidedTest
