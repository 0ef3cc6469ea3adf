import CrayTests.OneSidedProgress

/-!
# The operations of `rdm_one_sided`

What `bandwidths` does for a thread, by epochs: between two barriers of the ranks it either fills
the buffers for a size, or goes through `thread_fn`. All operations are done when they are due, and
the calls and handshakes come in the same order in all threads.
-/

namespace CrayTests.OneSidedTest

open CInteger RankProgram
open PingpongTest (rank peer peer_peer)

variable {threads : ℕ} {E : Setup threads} {o : Options} {p q : Fin (2 * threads)} {e k : ℕ}

def Options.counts (o : Options) (k : ℕ) : Counts :=
  if 2 ^ k > largeMessageSize then ⟨o.loopLarge, o.skipLarge, o.windowSizeLarge⟩
  else ⟨o.loop, o.skip, o.windowSize⟩

def windowOps (c : Counts) (k : ℕ) : List Op :=
  List.replicate c.windowSize (.fiWrite (2 ^ k)) ++ List.replicate c.windowSize .readScq

def roundOps (c : Counts) (k i : ℕ) : List Op :=
  (if i = c.skip then [.getTimeUsec (2 * k)] else []) ++ windowOps c k

def writeOps (c : Counts) (k : ℕ) : List Op :=
  (List.range (c.loop + c.skip)).flatMap (roundOps c k)

def transferOps (c : Counts) (k : ℕ) (p : Fin (2 * threads)) : List Op :=
  if rank p = 0 then
    writeOps c k ++ [.fiSend, .readScq, .fiRecv, .readRcq, .getTimeUsec (2 * k + 1)]
  else [.fiRecv, .readRcq, .fiSend, .readScq]

def threadOps (c : Counts) (k : ℕ) (p : Fin (2 * threads)) : List Op :=
  [.callTbarrier, .returnTbarrier] ++ (transferOps c k p ++ [.callTbarrier, .returnTbarrier])

def stage (o : Options) (p : Fin (2 * threads)) (e : ℕ) : List Op :=
  if e < 2 * numSizes then
    if e % 2 = 0 then [.touch (2 ^ (e / 2))] else threadOps (o.counts (e / 2)) (e / 2) p
  else if e = 2 * numSizes then [.fini] else []

def plan (o : Options) (p : Fin (2 * threads)) : List (ℕ × Op) :=
  (List.range (2 * numSizes + 1)).flatMap fun e => inEpoch e (stage o p e)

theorem stage_even (hk : k < numSizes) : stage o p (2 * k) = [.touch (2 ^ k)] := by
  unfold stage
  rw [if_pos (by omega), if_pos (by omega), Nat.mul_div_cancel_left k (by decide)]

theorem stage_odd (hk : k < numSizes) : stage o p (2 * k + 1) = threadOps (o.counts k) k p := by
  have hdiv : (2 * k + 1) / 2 = k := by omega
  unfold stage
  rw [if_pos (by omega), if_neg (by omega), hdiv]

theorem stage_last : stage o p (2 * numSizes) = [.fini] := by
  unfold stage
  rw [if_neg (lt_irrefl _), if_pos rfl]

theorem range_two_mul {β : Type} (m : ℕ) (f : ℕ → List β) :
    (List.range (2 * m)).flatMap f = (List.range m).flatMap fun k => f (2 * k) ++ f (2 * k + 1) := by
  induction m with
  | zero => rfl
  | succ m ih =>
    rw [Nat.mul_succ, List.range_succ, List.range_succ, List.range_succ, List.flatMap_append,
      List.flatMap_append, List.flatMap_append, ih]
    simp

def predicted (E : Setup threads) : Oracle interface (2 * threads) where
  resp p
    | .touch _ => ()
    | .callTbarrier => ()
    | .returnTbarrier => ()
    | .getTimeUsec k => E.clock p k
    | .fiWrite _ => ()
    | .fiSend => ()
    | .fiRecv => ()
    | .readScq => ()
    | .readRcq => ()
    | .fini => ()
  gathered _ _ := ()

def resultOf (E : Setup threads) (o : Options) (p : Fin (2 * threads)) (k : ℕ) : Result :=
  if rank p = 0 then
    ⟨E.clock p (2 * k), E.clock p (2 * k + 1),
      uint64 ((o.counts k).loop * (o.counts k).windowSize * 2 ^ k : ℕ)⟩
  else ⟨0, 0, 0⟩

/-- `t_start` in round `i`, and the bytes that are counted when it begins to write. -/
def started (E : Setup threads) (c : Counts) (p : Fin (2 * threads)) (k i : ℕ) : ℕ :=
  if i < c.skip then 0 else E.clock p (2 * k)

def counted (c : Counts) (k i : ℕ) : ℕ :=
  (if i < c.skip then i else i - c.skip) * (c.windowSize * 2 ^ k)

def metered (E : Setup threads) (c : Counts) (p : Fin (2 * threads)) (k : ℕ) : ℕ → Meter
  | 0 => {}
  | i + 1 => ⟨started E c p k i, uint64 ((counted c k i + c.windowSize * 2 ^ k : ℕ) : ℤ)⟩

/-- A round that does not start the timer goes on with what it finds. -/
theorem metered_eq {c : Counts} {i : ℕ} (hi : i ≠ c.skip) :
    metered E c p k i = ⟨started E c p k i, uint64 (counted c k i : ℤ)⟩ := by
  cases i with
  | zero =>
    have hpos : 0 < c.skip := Nat.pos_of_ne_zero hi.symm
    simp [metered, started, counted, hpos, uint64]
  | succ i =>
    have hcounted : counted c k (i + 1) = counted c k i + c.windowSize * 2 ^ k := by
      unfold counted
      rw [← Nat.succ_mul]
      congr 1
      split_ifs <;> omega
    have hstarted : started E c p k (i + 1) = started E c p k i := by
      unfold started
      split_ifs <;> first | rfl | omega
    rw [metered, hcounted, hstarted]

theorem uint64_add (a b : ℕ) :
    uint64 ((uint64 (a : ℤ) : ℕ) + (b : ℤ)) = uint64 ((a + b : ℕ) : ℤ) := by
  unfold uint64
  omega

/-- Entered in epoch `e`, the program does `ops` and returns `a` without leaving the epoch. -/
abbrev Does {α : Type} (E : Setup threads) (p : Fin (2 * threads)) (e : ℕ) (prog : Thread threads α)
    (ops : List Op) (a : α) : Prop := Conforms (predicted E) p e prog (inEpoch e ops) a e

theorem flatMap_range_const {β : Type} (m : ℕ) (x : β) :
    ((List.range m).flatMap fun _ => [x]) = List.replicate m x := by
  induction m with
  | zero => rfl
  | succ m ih => rw [List.range_succ, List.flatMap_append, ih, List.replicate_succ']; rfl

theorem does_op (op : Op) : Does E p e (.op op .pure) [op] ((predicted E).resp p op) := .op (.pure _)

theorem does_pure {α : Type} (a : α) : Does E p e (.pure a) [] a := .pure a

/-- What comes last only returns. -/
theorem Does.return {α β : Type} {prog : Thread threads α} {ops : List Op} {a : α} {b : β}
    {f : α → Thread threads β} (h : Does E p e prog ops a) (hf : Does E p e (f a) [] b) :
    Does E p e (prog.bind f) ops b := by
  have hbind := h.stay hf
  rwa [List.append_nil] at hbind

theorem does_wait {read : Thread threads Unit} {op : Op} (h : Does E p e read [op] ()) (m : ℕ) :
    Does E p e (waitForComp read m) (List.replicate m op) () := by
  have hloop := Conforms.loop (Ω := predicted E) (r := p) (e := e) (fun _ _ => read) (i := 0) m
    (fun _ => ()) (fun _ => [op]) fun _ _ => h
  rwa [flatMap_range_const] at hloop

theorem does_ctTbarrier : Does E p e ctTbarrier [.callTbarrier, .returnTbarrier] () :=
  (does_op .callTbarrier).stay (does_op .returnTbarrier)

theorem does_startTimer (c : Counts) (k i : ℕ) :
    Does E p e (startTimer c.skip k i (metered E c p k i))
      (if i = c.skip then [.getTimeUsec (2 * k)] else [])
      ⟨started E c p k i, uint64 (counted c k i : ℤ)⟩ := by
  unfold startTimer
  by_cases hi : i = c.skip
  · have hcounted : counted c k i = 0 := by simp [counted, hi]
    have hstarted : started E c p k i = E.clock p (2 * k) := if_neg (by omega)
    rw [if_pos hi, if_pos hi, hcounted, hstarted]
    exact (does_op (.getTimeUsec (2 * k))).stay (.pure _)
  · rw [if_neg hi, if_neg hi, metered_eq hi]
    exact .pure _

/-- The writes of a window. -/
theorem does_window (size m b : ℕ) (tStart : ℕ) :
    Does E p e (Program.loop (fun _ (m : Meter) => do
      fiWrite size
      pure { m with bytesSent := uint64 (m.bytesSent + size) }) 0 m ⟨tStart, uint64 (b : ℤ)⟩)
      (List.replicate m (.fiWrite size)) ⟨tStart, uint64 ((b + m * size : ℕ) : ℤ)⟩ := by
  have hloop := Conforms.loop (Ω := predicted E) (r := p) (e := e) (fun _ (m : Meter) => do
      fiWrite size
      pure { m with bytesSent := uint64 (m.bytesSent + size) }) (i := 0) m
    (fun j => ⟨tStart, uint64 ((b + j * size : ℕ) : ℤ)⟩) (fun _ => [.fiWrite size]) fun j _ => by
      have hnext := uint64_add (b + j * size) size
      rw [Nat.add_assoc, ← Nat.succ_mul] at hnext
      rw [← hnext]
      exact (does_op (.fiWrite size)).stay (.pure _)
  rw [flatMap_range_const, Nat.zero_mul, Nat.add_zero] at hloop
  exact hloop

theorem does_writeRound (c : Counts) (k i : ℕ) :
    Does E p e (writeRound (2 ^ k) c k i (metered E c p k i)) (roundOps c k i)
      (metered E c p k (i + 1)) := by
  have hreads := does_wait (E := E) (p := p) (e := e) (does_op .readScq) c.windowSize
  exact (does_startTimer c k i).stay ((does_window _ _ _ _).stay (Does.return hreads (does_pure _)))

/-- The timer has been started, and `loop` rounds have been counted. -/
theorem metered_last {c : Counts} (hloop : 0 < c.loop) : metered E c p k (c.loop + c.skip) =
    ⟨E.clock p (2 * k), uint64 (c.loop * c.windowSize * 2 ^ k : ℕ)⟩ := by
  obtain ⟨l, hl⟩ := Nat.exists_eq_succ_of_ne_zero hloop.ne'
  have hlast : c.loop + c.skip = l + c.skip + 1 := by omega
  have hcounted : counted c k (l + c.skip) + c.windowSize * 2 ^ k =
      c.loop * c.windowSize * 2 ^ k := by
    unfold counted
    rw [if_neg (by omega), Nat.add_sub_cancel, ← Nat.succ_mul, hl, Nat.mul_assoc]
  have hstarted : started E c p k (l + c.skip) = E.clock p (2 * k) := if_neg (by omega)
  rw [hlast, metered, hcounted, hstarted]

theorem counts_loop_pos (o : Options) (k : ℕ) : 0 < (o.counts k).loop := by
  unfold Options.counts
  split_ifs
  · exact o.loop_pos.2
  · exact o.loop_pos.1

theorem counts_windowSize (o : Options) (k : ℕ) : (o.counts k).windowSize = o.windowSize := by
  unfold Options.counts
  split_ifs <;> rfl

theorem does_threadFn (o : Options) (p : Fin (2 * threads)) (k : ℕ) :
    Does E p e (threadFn p (2 ^ k) (o.counts k) k) (threadOps (o.counts k) k p)
      (resultOf E o p k) := by
  have hscq : Does E p e (waitForComp readScq 1) [.readScq] () := does_wait (does_op .readScq) 1
  have hrcq : Does E p e (waitForComp readRcq 1) [.readRcq] () := does_wait (does_op .readRcq) 1
  have hsend : Does E p e fiSend [.fiSend] () := does_op .fiSend
  have hrecv : Does E p e fiRecv [.fiRecv] () := does_op .fiRecv
  have hlast {a : Result} : Does E p e (do
      ctTbarrier
      pure a : Thread threads Result) [.callTbarrier, .returnTbarrier] a :=
    Does.return does_ctTbarrier (does_pure a)
  refine does_ctTbarrier.stay ?_
  unfold transferOps resultOf
  by_cases hp : rank p = 0
  · rw [if_pos hp, if_pos hp, if_pos hp]
    have hloop := Conforms.loop (Ω := predicted E) (r := p) (e := e)
      (writeRound (2 ^ k) (o.counts k) k) (i := 0) ((o.counts k).loop + (o.counts k).skip)
      (metered E (o.counts k) p k) (roundOps (o.counts k) k) fun i _ => by
        rw [Nat.zero_add]
        exact does_writeRound (o.counts k) k i
    rw [metered_last (counts_loop_pos o k)] at hloop
    have hend : Does E p e (getTimeUsec (2 * k + 1)) [.getTimeUsec (2 * k + 1)]
        (E.clock p (2 * k + 1)) := does_op _
    rw [List.append_assoc]
    exact hloop.stay (hsend.stay (hscq.stay (hrecv.stay (hrcq.stay (hend.stay hlast)))))
  · rw [if_neg hp, if_neg hp, if_neg hp]
    exact hrecv.stay (hrcq.stay (hsend.stay (hscq.stay hlast)))

def sizesAt (E : Setup threads) (o : Options) (p : Fin (2 * threads)) (k : ℕ) : Sizes :=
  ⟨2 ^ k, if 2 ^ (k - 1) > largeMessageSize then o.counts (k - 1) else (Sizes.init o).counts,
    (List.range k).map (resultOf E o p)⟩

theorem latch_sizesAt (k : ℕ) : ((sizesAt E o p k).latch o).counts = o.counts k := by
  have hle : 2 ^ (k - 1) ≤ 2 ^ k := Nat.pow_le_pow_right (by decide) (Nat.sub_le k 1)
  unfold Sizes.latch sizesAt Options.counts Sizes.init
  by_cases hk : 2 ^ k > largeMessageSize
  · simp [hk]
  · simp [hk, hle.trans (not_lt.mp hk)]

theorem next_sizesAt (k : ℕ) :
    ((sizesAt E o p k).latch o).next (resultOf E o p k) = sizesAt E o p (k + 1) := by
  have hcounts := latch_sizesAt (E := E) (o := o) (p := p) k
  have hsize : ((sizesAt E o p k).latch o).size = 2 ^ k := by
    unfold Sizes.latch
    split_ifs <;> rfl
  have hresults : ((sizesAt E o p k).latch o).results = (List.range k).map (resultOf E o p) := by
    unfold Sizes.latch
    split_ifs <;> rfl
  unfold Sizes.next
  rw [hsize, hresults, hcounts]
  unfold sizesAt
  rw [List.range_succ, List.map_append, Nat.add_sub_cancel, pow_succ]
  congr 1
  unfold Options.counts Sizes.init
  split_ifs <;> rfl

theorem conforms_measure (k : ℕ) (hk : k < numSizes) :
    Conforms (predicted E) p (2 * k) (measure o p k (sizesAt E o p k))
      (inEpoch (2 * k) (stage o p (2 * k)) ++ inEpoch (2 * k + 1) (stage o p (2 * k + 1)))
      (sizesAt E o p (k + 1)) (2 * (k + 1)) := by
  have hbarrier (e : ℕ) : Conforms (predicted E) p e ctpmBarrier [] () (e + 1) :=
    .sync rfl (.pure ())
  rw [stage_even hk, stage_odd hk]
  refine (does_op (.touch (2 ^ k))).bind ((hbarrier (2 * k)).silent ?_)
  rw [latch_sizesAt]
  refine RankProgram.Conforms.congr (List.append_nil _) ((does_threadFn o p k).bind ?_)
  refine (hbarrier (2 * k + 1)).silent ?_
  rw [next_sizesAt]
  exact .pure _

theorem conforms_bandwidths (E : Setup threads) (o : Options) (p : Fin (2 * threads)) :
    Conforms (predicted E) p 0 (bandwidths o p) (plan o p)
      ((List.range numSizes).map (resultOf E o p)) (2 * numSizes + 1) := by
  have hloop := Conforms.loopEpochs (Ω := predicted E) (r := p) (measure o p) (i := 0) numSizes
    (sizesAt E o p) (fun k => 2 * k)
    (fun k => inEpoch (2 * k) (stage o p (2 * k)) ++ inEpoch (2 * k + 1) (stage o p (2 * k + 1)))
    fun k hk => by
      rw [Nat.zero_add]
      exact conforms_measure k hk
  have hplan : plan o p = ((List.range numSizes).flatMap fun k =>
      inEpoch (2 * k) (stage o p (2 * k)) ++ inEpoch (2 * k + 1) (stage o p (2 * k + 1))) ++
        inEpoch (2 * numSizes) [.fini] := by
    unfold plan
    rw [List.range_succ, List.flatMap_append, range_two_mul, List.flatMap_singleton, stage_last]
  rw [hplan]
  refine hloop.bind ?_
  refine RankProgram.Conforms.congr (List.append_nil _) ((does_op .fini).bind ?_)
  exact .sync rfl (.pure _)

open Due (Closed Legal)

theorem legal_writes (w size m j : ℕ) (hle : j + m ≤ w) :
    Legal w ⟨j, 0, 0⟩ (List.replicate m (.fiWrite size)) ∧
      Due.after ⟨j, 0, 0⟩ (List.replicate m (.fiWrite size)) = ⟨j + m, 0, 0⟩ := by
  induction m generalizing j with
  | zero => exact ⟨trivial, rfl⟩
  | succ m ih =>
    obtain ⟨hlegal, hafter⟩ := ih (j + 1) (by omega)
    refine ⟨⟨⟨by dsimp only; omega, rfl, rfl⟩, hlegal⟩, ?_⟩
    rw [List.replicate_succ]
    exact hafter.trans (by rw [Nat.add_right_comm]; rfl)

theorem legal_reads (w m : ℕ) : Legal w ⟨m, 0, 0⟩ (List.replicate m .readScq) ∧
    Due.after ⟨m, 0, 0⟩ (List.replicate m .readScq) = {} := by
  induction m with
  | zero => exact ⟨trivial, rfl⟩
  | succ m ih => exact ⟨⟨Nat.succ_pos m, ih.1⟩, ih.2⟩

theorem closed_windowOps (c : Counts) (k : ℕ) : Closed c.windowSize (windowOps c k) := by
  obtain ⟨hwrites, hafter⟩ := legal_writes c.windowSize (2 ^ k) c.windowSize 0 (by omega)
  obtain ⟨hreads, hafter'⟩ := legal_reads c.windowSize c.windowSize
  rw [Nat.zero_add] at hafter
  unfold windowOps
  constructor
  · rw [Due.legal_append]
    exact ⟨hwrites, hafter ▸ hreads⟩
  · rw [Due.after_append]
    exact hafter ▸ hafter'

theorem closed_quiet (w : ℕ) {op : Op} (hallows : Due.Allows w {} op) (hstep : Due.step {} op = {}) :
    Closed w [op] := ⟨⟨hallows, trivial⟩, hstep⟩

theorem closed_roundOps (c : Counts) (k i : ℕ) : Closed c.windowSize (roundOps c k i) := by
  unfold roundOps
  refine Closed.append ?_ (closed_windowOps c k)
  split_ifs
  · exact closed_quiet _ rfl rfl
  · exact .nil

theorem closed_send (w : ℕ) : Closed w [.fiSend, .readScq] :=
  ⟨⟨rfl, Nat.one_pos, trivial⟩, rfl⟩

theorem closed_recv (w : ℕ) : Closed w [.fiRecv, .readRcq] :=
  ⟨⟨rfl, Nat.one_pos, trivial⟩, rfl⟩

theorem closed_tbarrier (w : ℕ) : Closed w [.callTbarrier, .returnTbarrier] :=
  ⟨⟨rfl, rfl, trivial⟩, rfl⟩

theorem closed_threadOps (c : Counts) (k : ℕ) (p : Fin (2 * threads)) :
    Closed c.windowSize (threadOps c k p) := by
  have htransfer : Closed c.windowSize (transferOps c k p) := by
    unfold transferOps
    split_ifs
    · exact (Closed.flatMap fun i _ => closed_roundOps c k i).append
        ((closed_send _).append ((closed_recv _).append (closed_quiet _ rfl rfl)))
    · exact (closed_recv _).append (closed_send _)
  exact (closed_tbarrier _).append (htransfer.append (closed_tbarrier _))

theorem closed_stage (o : Options) (p : Fin (2 * threads)) (e : ℕ) :
    Closed o.windowSize (stage o p e) := by
  unfold stage
  split_ifs
  · exact closed_quiet _ rfl rfl
  · exact counts_windowSize o (e / 2) ▸ closed_threadOps (o.counts (e / 2)) (e / 2) p
  · exact closed_quiet _ rfl rfl
  · exact .nil

theorem map_snd_inEpoch {O : Type} (e : ℕ) (ops : List O) : (inEpoch e ops).map Prod.snd = ops := by
  simp

theorem map_snd_flatMap (o : Options) (p : Fin (2 * threads)) (m : ℕ) :
    ((List.range m).flatMap fun e => inEpoch e (stage o p e)).map Prod.snd =
      (List.range m).flatMap (stage o p) := by
  rw [List.map_flatMap]
  simp only [map_snd_inEpoch]

theorem marks_eq_nil {l : List (ℕ × Op)} (h : ∀ x ∈ l, x.2.mark p = none) : marks p l = [] := by
  refine List.filterMap_eq_nil_iff.mpr fun x hx => ?_
  rw [h x hx]
  rfl

theorem mark_writeOps {c : Counts} {op : Op} (h : op ∈ writeOps c k) : op.mark p = none := by
  obtain ⟨i, -, hop⟩ := List.mem_flatMap.mp h
  unfold roundOps windowOps at hop
  rcases List.mem_append.mp hop with hop | hop
  · split_ifs at hop
    · obtain rfl := List.mem_singleton.mp hop
      rfl
    · cases hop
  · rcases List.mem_append.mp hop with hop | hop <;> rw [List.eq_of_mem_replicate hop] <;> rfl

theorem marks_threadOps (c : Counts) (k e : ℕ) (p : Fin (2 * threads)) :
    marks p (inEpoch e (threadOps c k p)) =
      [(e, .call), (e, .first), (e, .second), (e, .call)] := by
  have hwrites : marks p (inEpoch e (writeOps c k)) = [] := by
    refine marks_eq_nil fun x hx => ?_
    obtain ⟨op, hop, rfl⟩ := List.mem_map.mp hx
    exact mark_writeOps hop
  unfold threadOps transferOps
  by_cases hp : rank p = 0
  · rw [if_pos hp, List.append_assoc]
    simp only [inEpoch, List.map_append] at hwrites ⊢
    rw [marks_append, marks_append, hwrites]
    simp [marks, Op.mark, hp]
  · rw [if_neg hp]
    simp [marks, Op.mark, hp]

theorem marks_stage (o : Options) (e : ℕ) (p q : Fin (2 * threads)) :
    marks p (inEpoch e (stage o p e)) = marks q (inEpoch e (stage o q e)) := by
  unfold stage
  split_ifs
  · rfl
  · rw [marks_threadOps, marks_threadOps]
  · rfl
  · rfl

theorem orderly_bandwidths (E : Setup threads) (o : Options) :
    Orderly E (predicted E) (bandwidths o) (plan o) o.windowSize where
  coherent := coherent_of_conforms (conforms_bandwidths E o)
  clocks _ _ := rfl
  plan_eq p := (conforms_bandwidths E o p).ops_eq
  even p q := (conforms_bandwidths E o p).lastEpoch_eq.trans
    (conforms_bandwidths E o q).lastEpoch_eq.symm
  closed p := by
    unfold plan
    rw [map_snd_flatMap]
    exact Closed.flatMap fun e _ => closed_stage o p e
  marks_eq p q := by
    unfold plan marks
    rw [List.filterMap_flatMap, List.filterMap_flatMap]
    congr 1
    funext e
    exact marks_stage o e p q

end CrayTests.OneSidedTest
