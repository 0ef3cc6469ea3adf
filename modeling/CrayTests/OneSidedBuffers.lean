import CrayTests.OneSidedPositions

/-!
# The buffers of `rdm_one_sided`

If the provider reports a write when its bytes are placed, then in every state of every run the
source of a thread holds the bytes of the size until the handshake, every write under way carries
them, the target holds them from the first write that is placed, and nothing else is written.
-/

namespace CrayTests.OneSidedTest

open CInteger RankProgram
open PingpongTest (rank peer peer_peer)

variable {threads : ℕ} {E : Setup threads} {o : Options} {p q : Fin (2 * threads)} {e k : ℕ}
variable {s s' : State (machine E) (List Result)} {sBuf rBuf : Fin (2 * threads) → Buffer}
variable {op : Op} {next : op.Resp → Thread threads (List Result)} {part : List Op}

theorem mem_stage (h : op ∈ stage o p e) : (∃ k < numSizes, e = 2 * k ∧ op = .touch (2 ^ k)) ∨
    (∃ k < numSizes, e = 2 * k + 1 ∧ op ∈ threadOps (o.counts k) k p) ∨
    e = 2 * numSizes ∧ op = .fini := by
  unfold stage at h
  split_ifs at h with hlt heven hlast
  · exact .inl ⟨e / 2, by omega, by omega, List.mem_singleton.mp h⟩
  · exact .inr (.inl ⟨e / 2, by omega, by omega, h⟩)
  · exact .inr (.inr ⟨hlast, List.mem_singleton.mp h⟩)
  · exact absurd h List.not_mem_nil

theorem mem_threadOps {c : Counts} (h : op ∈ threadOps c k p) : op ∈
    [.callTbarrier, .returnTbarrier, .getTimeUsec (2 * k), .fiWrite (2 ^ k), .readScq, .fiSend,
      .fiRecv, .readRcq, .getTimeUsec (2 * k + 1)] := by
  have hwrites : op ∈ writeOps c k → _ := mem_writeOps
  unfold threadOps transferOps at h
  split_ifs at h <;> simp only [List.mem_append, List.mem_cons, List.not_mem_nil, or_false] at h ⊢
  · tauto
  · tauto

theorem eq_nil_of_isPrefix {l : List Op} {x y : Op} (h : l ++ [x] <+: [y]) : l = [] := by
  have hlen := h.length_le
  rw [List.length_append, List.length_singleton, List.length_singleton] at hlen
  exact List.eq_nil_of_length_eq_zero (by omega)

/-- Up to an element that does not come later. -/
theorem isPrefix_of_last {l as bs : List Op} {x : Op} (h : l ++ [x] <+: as ++ bs) (hx : x ∉ bs) :
    l ++ [x] <+: as := by
  rcases List.prefix_or_prefix_of_prefix h (List.prefix_append as bs) with has | ⟨late, hlate⟩
  · exact has
  · rcases List.eq_nil_or_concat late with rfl | ⟨late', y, rfl⟩
    · rw [List.append_nil] at hlate
      rw [hlate]
    · rw [← hlate, List.prefix_append_right_inj] at h
      rw [List.concat_eq_append] at hlate h
      rw [← List.append_assoc] at hlate
      obtain ⟨-, hy⟩ := List.append_inj' hlate rfl
      rw [hy] at h
      exact absurd (h.subset (List.mem_append_right _ (List.mem_singleton_self x))) hx

theorem at_touch {size : ℕ} {next : Unit → Thread threads (List Result)} (hs : Run E o sBuf rBuf s)
    (hcode : (s.proc p).code = .op (Op.touch size) next) :
    ∃ k < numSizes, (s.proc p).epoch = 2 * k ∧ size = 2 ^ k ∧ At o s p (2 * k) [] := by
  obtain ⟨part, hpart, hat⟩ := position_op hs hcode
  rcases mem_stage (hpart.subset List.mem_concat_self) with
    ⟨k, hk, he, hop⟩ | ⟨k, hk, he, hop⟩ | ⟨he, hop⟩
  · rw [he, stage_even hk] at hpart
    rw [he, eq_nil_of_isPrefix hpart] at hat
    exact ⟨k, hk, he, Op.touch.inj hop, hat⟩
  · simpa using mem_threadOps hop
  · cases hop

theorem at_fini {next : Unit → Thread threads (List Result)} (hs : Run E o sBuf rBuf s)
    (hcode : (s.proc p).code = .op Op.fini next) :
    (s.proc p).epoch = 2 * numSizes ∧ At o s p (2 * numSizes) [] := by
  obtain ⟨part, hpart, hat⟩ := position_op hs hcode
  rcases mem_stage (hpart.subset List.mem_concat_self) with
    ⟨k, hk, he, hop⟩ | ⟨k, hk, he, hop⟩ | ⟨he, hop⟩
  · cases hop
  · simpa using mem_threadOps hop
  · rw [he, stage_last] at hpart
    rw [he, eq_nil_of_isPrefix hpart] at hat
    exact ⟨he, hat⟩

/-- Rank 0 writes before it posts the receive of the size. -/
theorem at_write {size : ℕ} {next : Unit → Thread threads (List Result)} (hs : Run E o sBuf rBuf s)
    (hcode : (s.proc p).code = .op (Op.fiWrite size) next) :
    ∃ k < numSizes, size = 2 ^ k ∧ rank p = 0 ∧ (performed s p).countP Op.isTouch = k + 1 ∧
      (performed s p).count .fiRecv = k := by
  obtain ⟨part, hpart, hat⟩ := position_op hs hcode
  rcases mem_stage (hpart.subset List.mem_concat_self) with
    ⟨k, hk, he, hop⟩ | ⟨k, hk, he, hop⟩ | ⟨he, hop⟩
  · cases hop
  · rw [he] at hat
    rw [he, stage_odd hk] at hpart
    have hsize : size = 2 ^ k := by simpa using mem_threadOps hop
    have hrank : rank p = 0 := by
      by_contra hne
      unfold threadOps transferOps at hop
      simp [hne] at hop
    refine ⟨k, hk, hsize, hrank, hat.touches_odd hk, ?_⟩
    unfold threadOps transferOps at hpart
    rw [if_pos hrank, List.append_assoc, ← List.append_assoc] at hpart
    have hpre := isPrefix_of_last hpart (by simp)
    have hwrites : (writeOps (o.counts k) k).count .fiRecv = 0 := countP_writeOps rfl rfl rfl
    have hcount := hpre.sublist.count_le .fiRecv
    rw [List.count_append, List.count_append, hwrites] at hcount
    have hpartZero : part.count .fiRecv = 0 :=
      Nat.eq_zero_of_le_zero ((Nat.le_add_right _ _).trans hcount)
    rw [hat.recvs_odd hk, hpartZero, Nat.add_zero]
  · cases hop

section Buffers

variable {mem mem' : Mem threads} {ops ops' : Fin (2 * threads) → List Op} {bytes : List Char}

/-- What the buffers hold if a write is reported when its bytes are placed: the bytes of the size
that was touched last are in the source until the handshake, in the target from the first write that
is placed, and nothing else is written. -/
structure Placed (o : Options) (rBuf : Fin (2 * threads) → Buffer) (mem : Mem threads)
    (ops : Fin (2 * threads) → List Op) : Prop where
  writer : ∀ q, (mem.ep q).flying ≠ [] → rank q = 0
  flying : ∀ q, ∀ bytes ∈ (mem.ep q).flying,
    bytes = List.replicate (2 ^ ((ops q).countP Op.isTouch - 1)) 'a'
  source : ∀ q, (ops q).count .fiRecv < (ops q).countP Op.isTouch →
    ∀ x < 2 ^ ((ops q).countP Op.isTouch - 1), (mem.ep q).sBuf x = 'a'
  target : ∀ p q, p = peer q → 0 < (ops p).countP Op.isTouch →
    (performedBefore o q (2 * ((ops p).countP Op.isTouch - 1))).countP Op.isWrite +
        (mem.ep q).flying.length <
      (ops q).countP Op.isWrite →
    ∀ x < 2 ^ ((ops p).countP Op.isTouch - 1), (mem.ep p).rBuf x = 'a'
  blank : ∀ p, rank p = 0 → 0 < (ops p).countP Op.isTouch →
    ∀ x < 2 ^ ((ops p).countP Op.isTouch - 1), (mem.ep p).rBuf x = 'b'
  rest : ∀ p x, (0 < (ops p).countP Op.isTouch → 2 ^ ((ops p).countP Op.isTouch - 1) ≤ x) →
    (mem.ep p).rBuf x = rBuf p x

theorem placed_init (sBuf rBuf : Fin (2 * threads) → Buffer) :
    Placed o rBuf (Mem.init sBuf rBuf) fun _ => [] where
  writer _ h := absurd rfl h
  flying _ _ h := absurd h List.not_mem_nil
  source _ h := absurd h (Nat.not_lt_zero _)
  target _ _ _ h := absurd h (lt_irrefl _)
  blank _ _ h := absurd h (lt_irrefl _)
  rest _ _ _ := rfl

theorem Buffer.fill_lt (buf : Buffer) {size x : ℕ} (c : Char) (hx : x < size) :
    buf.fill size c x = c := if_pos hx

theorem Buffer.fill_ge (buf : Buffer) {size x : ℕ} (c : Char) (hx : size ≤ x) :
    buf.fill size c x = buf x := if_neg (not_lt.mpr hx)

theorem Buffer.put_replicate (buf : Buffer) (size x : ℕ) (c : Char) :
    buf.put (List.replicate size c) x = if x < size then c else buf x := by
  unfold put
  rw [List.getD_eq_getElem?_getD, List.getElem?_replicate]
  split_ifs <;> rfl

theorem Buffer.first_eq_replicate {buf : Buffer} {size : ℕ} {c : Char}
    (h : ∀ x < size, buf x = c) : buf.first size = List.replicate size c := by
  unfold first
  refine List.eq_replicate_iff.mpr ⟨by simp, fun b hb => ?_⟩
  obtain ⟨x, hx, rfl⟩ := List.mem_map.mp hb
  exact h x (List.mem_range.mp hx)

namespace Placed

/-- Steps that leave the buffers as they are. -/
theorem congr (h : Placed o rBuf mem ops)
    (hflying : ∀ q, (mem'.ep q).flying = (mem.ep q).flying)
    (hsBuf : ∀ q, (ops' q).count .fiRecv < (ops' q).countP Op.isTouch →
      (mem'.ep q).sBuf = (mem.ep q).sBuf)
    (hrBuf : ∀ q, (mem'.ep q).rBuf = (mem.ep q).rBuf)
    (htouches : ∀ q, (ops' q).countP Op.isTouch = (ops q).countP Op.isTouch)
    (hwrites : ∀ q, (ops' q).countP Op.isWrite = (ops q).countP Op.isWrite)
    (hrecvs : ∀ q, (ops q).count .fiRecv ≤ (ops' q).count .fiRecv) : Placed o rBuf mem' ops' where
  writer q hne := h.writer q (hflying q ▸ hne)
  flying q bytes hmem := by
    rw [htouches]
    exact h.flying q bytes (hflying q ▸ hmem)
  source q hlt := by
    have hlt' := (hrecvs q).trans_lt (htouches q ▸ hlt)
    rw [hsBuf q hlt, htouches]
    exact h.source q hlt'
  target p q hpeer hpos hlt := by
    rw [htouches] at hpos hlt
    rw [hflying, hwrites] at hlt
    rw [hrBuf, htouches]
    exact h.target p q hpeer hpos hlt
  blank p hp hpos := by
    rw [htouches] at hpos
    rw [hrBuf, htouches]
    exact h.blank p hp hpos
  rest p x hx := by
    rw [htouches] at hx
    rw [hrBuf]
    exact h.rest p x hx

/-- The buffers are filled when all writes are placed, and all writes of the sizes before are
posted. -/
theorem touch (h : Placed o rBuf mem ops) (htouches : (ops p).countP Op.isTouch = k)
    (hnone : ∀ q, (mem.ep q).flying = [])
    (hwrites : (ops (peer p)).countP Op.isWrite =
      (performedBefore o (peer p) (2 * k)).countP Op.isWrite) :
    Placed o rBuf (mem.setEp p { mem.ep p with
      sBuf := (mem.ep p).sBuf.fill (2 ^ k) 'a', rBuf := (mem.ep p).rBuf.fill (2 ^ k) 'b' })
      (addOp ops p (.touch (2 ^ k))) := by
  have hself : (addOp ops p (.touch (2 ^ k)) p).countP Op.isTouch = k + 1 := by
    simp [countP_addOp, htouches, Op.isTouch]
  have hother {q : Fin (2 * threads)} (hq : q ≠ p) :
      addOp ops p (.touch (2 ^ k)) q = ops q := by rw [addOp_apply, if_neg hq]
  have hnone' (q : Fin (2 * threads)) : ((mem.setEp p { mem.ep p with
      sBuf := (mem.ep p).sBuf.fill (2 ^ k) 'a',
      rBuf := (mem.ep p).rBuf.fill (2 ^ k) 'b' }).ep q).flying = [] := by
    rw [setEp_ep]
    split_ifs
    · exact hnone p
    · exact hnone q
  refine ⟨fun q hne => absurd (hnone' q) hne, fun q bytes hmem => ?_, fun q hlt x hx => ?_,
    fun r q hpeer hpos hlt x hx => ?_, fun q hq hpos x hx => ?_, fun q x hx => ?_⟩
  · rw [hnone' q] at hmem
    exact absurd hmem List.not_mem_nil
  · rw [setEp_ep]
    by_cases hq : q = p
    · subst hq
      rw [hself, Nat.add_sub_cancel] at hx
      rw [if_pos rfl]
      exact Buffer.fill_lt _ _ hx
    · rw [hother hq] at hlt hx
      rw [if_neg hq]
      exact h.source q hlt x hx
  · rw [hnone', List.length_nil] at hlt
    rw [setEp_ep]
    by_cases hr : r = p
    · subst hr
      obtain rfl : q = peer r := (peer_eq_iff.mp hpeer.symm)
      rw [hself, Nat.add_sub_cancel, hother (peer_ne r), hwrites] at hlt
      exact absurd hlt (lt_irrefl _)
    · rw [hother hr] at hpos hlt hx
      rw [if_neg hr]
      refine h.target r q hpeer hpos ?_ x hx
      rw [hnone q]
      have hsame : (addOp ops p (.touch (2 ^ k)) q).countP Op.isWrite =
          (ops q).countP Op.isWrite := by
        simp [countP_addOp, Op.isWrite]
      rwa [hsame] at hlt
  · rw [setEp_ep]
    by_cases hqp : q = p
    · subst hqp
      rw [hself, Nat.add_sub_cancel] at hx
      rw [if_pos rfl]
      exact Buffer.fill_lt _ _ hx
    · rw [hother hqp] at hpos hx
      rw [if_neg hqp]
      exact h.blank q hq hpos x hx
  · rw [setEp_ep]
    by_cases hq : q = p
    · subst hq
      rw [hself, Nat.add_sub_cancel] at hx
      have hle := hx (Nat.succ_pos k)
      rw [if_pos rfl]
      refine (Buffer.fill_ge _ _ hle).trans (h.rest q x fun _ => ?_)
      rw [htouches]
      exact (Nat.pow_le_pow_right (by decide) (Nat.sub_le k 1)).trans hle
    · rw [hother hq] at hx
      rw [if_neg hq]
      exact h.rest q x hx

/-- A write carries the bytes that were touched. -/
theorem fiWrite (h : Placed o rBuf mem ops) (hrank : rank p = 0)
    (htouches : (ops p).countP Op.isTouch = k + 1) (hrecvs : (ops p).count .fiRecv = k) :
    Placed o rBuf (mem.setEp p { mem.ep p with
      flying := (mem.ep p).flying ++ [(mem.ep p).sBuf.first (2 ^ k)]
      writing := (mem.ep p).writing + 1 }) (addOp ops p (.fiWrite (2 ^ k))) := by
  have hsame (q : Fin (2 * threads)) :
      (addOp ops p (.fiWrite (2 ^ k)) q).countP Op.isTouch = (ops q).countP Op.isTouch := by
    simp [countP_addOp, Op.isTouch]
  have hsameRecvs (q : Fin (2 * threads)) :
      (addOp ops p (.fiWrite (2 ^ k)) q).count .fiRecv = (ops q).count .fiRecv := by
    simp [count_addOp]
  have hwrites (q : Fin (2 * threads)) : (addOp ops p (.fiWrite (2 ^ k)) q).countP Op.isWrite =
      (ops q).countP Op.isWrite + if q = p then 1 else 0 := by
    simp [countP_addOp, Op.isWrite]
  refine ⟨fun q hne => ?_, fun q bytes hmem => ?_, fun q hlt x hx => ?_,
    fun r q hpeer hpos hlt x hx => ?_, fun q hq hpos x hx => ?_, fun q x hx => ?_⟩
  · rw [setEp_ep] at hne
    by_cases hq : q = p
    · rw [hq, hrank]
    · rw [if_neg hq] at hne
      exact h.writer q hne
  · rw [hsame]
    rw [setEp_ep] at hmem
    by_cases hq : q = p
    · subst hq
      rw [if_pos rfl] at hmem
      rcases List.mem_append.mp hmem with hmem | hmem
      · exact h.flying q bytes hmem
      · rw [List.mem_singleton.mp hmem, htouches, Nat.add_sub_cancel]
        refine Buffer.first_eq_replicate fun x hx => h.source q (by omega) x ?_
        rwa [htouches, Nat.add_sub_cancel]
    · rw [if_neg hq] at hmem
      exact h.flying q bytes hmem
  · rw [hsame] at hlt hx
    rw [hsameRecvs] at hlt
    rw [setEp_same Endpoint.sBuf (by rfl)]
    exact h.source q hlt x hx
  · rw [hsame] at hpos hlt hx
    rw [setEp_same Endpoint.rBuf (by rfl)]
    refine h.target r q hpeer hpos ?_ x hx
    -- one more write is posted, and one more is not placed
    rw [hwrites, setEp_ep] at hlt
    by_cases hq : q = p
    · subst hq
      rw [if_pos rfl, if_pos rfl] at hlt
      simp only [List.length_append, List.length_singleton] at hlt
      omega
    · rw [if_neg hq, if_neg hq] at hlt
      exact hlt
  · rw [hsame] at hpos hx
    rw [setEp_same Endpoint.rBuf (by rfl)]
    exact h.blank q hq hpos x hx
  · rw [hsame] at hx
    rw [setEp_same Endpoint.rBuf (by rfl)]
    exact h.rest q x hx

/-- The bytes of a write are placed. -/
theorem place (h : Placed o rBuf mem ops) (hfly : bytes ∈ (mem.ep p).flying)
    (hpos : 0 < (ops p).countP Op.isTouch)
    (hsame : (ops (peer p)).countP Op.isTouch = (ops p).countP Op.isTouch)
    (hflying : ∀ q, (mem'.ep q).flying =
      if q = p then (mem.ep p).flying.erase bytes else (mem.ep q).flying)
    (hsBuf : ∀ q, (mem'.ep q).sBuf = (mem.ep q).sBuf)
    (hrBuf : ∀ q, (mem'.ep q).rBuf =
      if q = peer p then (mem.ep q).rBuf.put bytes else (mem.ep q).rBuf) :
    Placed o rBuf mem' ops := by
  have hrank : rank p = 0 := h.writer p (List.ne_nil_of_mem hfly)
  have hbytes := h.flying p bytes hfly
  have hother {q : Fin (2 * threads)} {x : ℕ}
      (hq : q = peer p → 2 ^ ((ops p).countP Op.isTouch - 1) ≤ x) :
      (mem'.ep q).rBuf x = (mem.ep q).rBuf x := by
    rw [hrBuf]
    split_ifs with hqp
    · rw [hbytes, Buffer.put_replicate, if_neg (not_lt.mpr (hq hqp))]
    · rfl
  refine ⟨fun q hne => ?_, fun q bytes' hmem => ?_, fun q hlt x hx => ?_,
    fun r q hpeer hpos' hlt x hx => ?_, fun q hq hpos' x hx => ?_, fun q x hx => ?_⟩
  · rw [hflying] at hne
    split_ifs at hne with hq
    · rw [hq, hrank]
    · exact h.writer q hne
  · rw [hflying] at hmem
    split_ifs at hmem with hq
    · exact h.flying q bytes' (hq ▸ List.mem_of_mem_erase hmem)
    · exact h.flying q bytes' hmem
  · rw [hsBuf]
    exact h.source q hlt x hx
  · by_cases hr : r = peer p
    · rw [hrBuf, if_pos hr, hbytes, Buffer.put_replicate, if_pos]
      rwa [hr, hsame] at hx
    · have hq : q ≠ p := fun hq => hr (hq ▸ hpeer)
      rw [hflying, if_neg hq] at hlt
      rw [hother (absurd · hr)]
      exact h.target r q hpeer hpos' hlt x hx
  · have hqp : q ≠ peer p := fun hqp => rank_peer.mp (hqp ▸ hq) hrank
    rw [hother (absurd · hqp)]
    exact h.blank q hq hpos' x hx
  · rw [hother fun hqp => ?_]
    · exact h.rest q x hx
    · rw [hqp, hsame] at hx
      exact hx hpos

end Placed

end Buffers

/-- Nothing is due to any thread while one fills its buffers or gives them up. -/
theorem due_of_even (hs : Run E o sBuf rBuf s) (hcode : (s.proc p).code = .op op next)
    (he : (s.proc p).epoch = 2 * k) (q : Fin (2 * threads)) : due s q = {} := by
  obtain ⟨part, hat⟩ := together hs (sent_eq_epoch hs hcode) q
  rw [he] at hat
  exact hat.due_even

theorem flying_eq_nil (hearly : E.early = false) (hs : Run E o sBuf rBuf s) (hdue : due s q = {}) :
    (s.mem.ep q).flying = [] := by
  have hlen := (accounts_of_reachable hs).flying hearly q
  have hscq := ((orderly_bandwidths E o).due_eq hs q).1
  have hzero : (due s q).scq = 0 := congrArg Due.scq hdue
  exact List.eq_nil_of_length_eq_zero (by omega)

/-- Only writes and touches change what the buffers hold, of what the threads do. -/
theorem buffers_perform {mem mem' : Mem threads} {x : op.Resp}
    (h : perform E p e op mem x mem') (htouch : op.isTouch = false) (hwrite : op.isWrite = false)
    (q : Fin (2 * threads)) : (mem'.ep q).flying = (mem.ep q).flying ∧
      (mem'.ep q).sBuf = (mem.ep q).sBuf ∧ (mem'.ep q).rBuf = (mem.ep q).rBuf := by
  have hset (mem : Mem threads) (r : Fin (2 * threads)) (ep : Endpoint)
      (hflying : ep.flying = (mem.ep r).flying) (hsBuf : ep.sBuf = (mem.ep r).sBuf)
      (hrBuf : ep.rBuf = (mem.ep r).rBuf) :
      ((mem.setEp r ep).ep q).flying = (mem.ep q).flying ∧
        ((mem.setEp r ep).ep q).sBuf = (mem.ep q).sBuf ∧
        ((mem.setEp r ep).ep q).rBuf = (mem.ep q).rBuf :=
    ⟨setEp_same _ hflying, setEp_same _ hsBuf, setEp_same _ hrBuf⟩
  cases op with
  | touch size => cases htouch
  | fiWrite size => cases hwrite
  | callTbarrier => rw [h.2]; exact ⟨rfl, rfl, rfl⟩
  | returnTbarrier => rw [h.2]; exact ⟨rfl, rfl, rfl⟩
  | getTimeUsec k => rw [h.2]; exact ⟨rfl, rfl, rfl⟩
  | fini => rw [h]; exact ⟨rfl, rfl, rfl⟩
  | readScq => rw [h.2]; exact hset _ _ _ rfl rfl rfl
  | readRcq => rw [h.2]; exact hset _ _ _ rfl rfl rfl
  | fiRecv => rw [h]; exact hset _ _ _ rfl rfl rfl
  | fiSend =>
    obtain ⟨hflying, hsBuf, hrBuf⟩ :=
      hset mem p { mem.ep p with sending := (mem.ep p).sending + 1 } rfl rfl rfl
    rw [h, ← hflying, ← hsBuf, ← hrBuf]
    refine hset _ _ _ ?_ ?_ ?_ <;> rw [setEp_ep, if_neg (peer_ne p)]

theorem Placed.answer {x : op.Resp} {mem : Mem threads} (h : Placed o rBuf s.mem (performed s))
    (hearly : E.early = false) (hs : Run E o sBuf rBuf s)
    (hcode : (s.proc p).code = .op op next) (hperform : perform E p e op s.mem x mem) :
    Placed o rBuf mem (addOp (performed s) p op) := by
  by_cases hbuf : op.isTouch = false ∧ op.isWrite = false
  · have hsame := buffers_perform hperform hbuf.1 hbuf.2
    refine h.congr (fun q => (hsame q).1) (fun q _ => (hsame q).2.1) (fun q => (hsame q).2.2)
      (fun q => ?_) (fun q => ?_) fun q => ?_
    · simp [countP_addOp, hbuf.1]
    · simp [countP_addOp, hbuf.2]
    · rw [count_addOp]
      exact Nat.le_add_right _ _
  cases op with
  | touch size =>
    obtain ⟨k, hk, he, rfl, hat⟩ := at_touch hs hcode
    have hdue := due_of_even hs hcode he
    obtain ⟨part, hpeer⟩ := together hs (sent_eq_epoch hs hcode) (peer p)
    rw [he] at hpeer
    obtain rfl := hperform
    refine h.touch ?_ (fun q => flying_eq_nil hearly hs (hdue q))
      (hpeer.countP_even (fun _ => rfl) rfl)
    rw [hat.performed_eq, List.append_nil, touches_before hk.le]
  | fiWrite size =>
    obtain ⟨k, -, rfl, hrank, htouches, hrecvs⟩ := at_write hs hcode
    obtain rfl := hperform
    exact h.fiWrite hrank htouches hrecvs
  | _ => exact absurd ⟨rfl, rfl⟩ hbuf

/-- A receive is posted once for each size that is touched. -/
theorem recvs_eq_of_due (hs : Run E o sBuf rBuf s) (hdue : 0 < (due s p).rcq) :
    (performed s p).countP Op.isTouch ≤ (performed s p).count .fiRecv := by
  obtain ⟨k, hk, hall⟩ := exists_size hs (p := p) fun hnil => by
    rw [hnil] at hdue
    exact absurd hdue (lt_irrefl _)
  obtain ⟨part, hat⟩ := hall p
  have hcounts := (Due.counts_after hat.legal).2.1
  rw [← hat.due_eq] at hcounts
  rw [hat.touches_odd hk, hat.recvs_odd hk]
  dsimp only at hcounts
  omega

theorem Placed.drift {mem : Mem threads} (h : Placed o rBuf s.mem (performed s))
    (hearly : E.early = false) (hs : Run E o sBuf rBuf s) (hdrift : Drift E s.mem mem) :
    Placed o rBuf mem (performed s) := by
  have hmove (r : Fin (2 * threads)) (ep : Endpoint) (hfly : ep.flying = (s.mem.ep r).flying)
      (hsBuf : (performed s r).count .fiRecv < (performed s r).countP Op.isTouch →
        ep.sBuf = (s.mem.ep r).sBuf) (hrBuf : ep.rBuf = (s.mem.ep r).rBuf) :
      Placed o rBuf (s.mem.setEp r ep) (performed s) := by
    refine h.congr (fun q => setEp_same _ hfly) (fun q hq => ?_) (fun q => setEp_same _ hrBuf)
      (fun _ => rfl) (fun _ => rfl) fun _ => le_rfl
    rw [setEp_ep]
    split_ifs with hqr
    · rw [hqr] at hq ⊢
      exact hsBuf hq
    · rfl
  cases hdrift with
  | place p bytes hfly =>
    have hdue : due s p ≠ {} := fun hnil =>
      List.ne_nil_of_mem hfly (flying_eq_nil hearly hs hnil)
    obtain ⟨k, hk, hall⟩ := exists_size hs hdue
    obtain ⟨part, hat⟩ := hall p
    obtain ⟨part', hat'⟩ := hall (peer p)
    refine h.place hfly ?_ ?_ (fun q => ?_) (fun q => ?_) fun q => ?_
    · rw [hat.touches_odd hk]
      exact Nat.succ_pos k
    · rw [hat.touches_odd hk, hat'.touches_odd hk]
    all_goals
      rw [setEp_ep, setEp_ep]
      by_cases hpeer : q = peer p
      · subst hpeer
        simp [peer_ne p]
      · by_cases hq : q = p
        · subst hq
          simp [hpeer]
        · simp [hpeer, hq]
  | reportWrite p hwrite hplaced => exact hmove p _ rfl (fun _ => rfl) rfl
  | reportSend p hsend hmet => exact hmove p _ rfl (fun _ => rfl) rfl
  | meet p bytes rest harrived hrecv =>
    refine hmove p _ rfl (fun hlt => absurd (recvs_eq_of_due hs ?_) (not_le.mpr hlt)) rfl
    have hrcq := ((orderly_bandwidths E o).due_eq hs p).2
    omega
  | tbarrier p hin =>
    exact h.congr (fun _ => rfl) (fun _ _ => rfl) (fun _ => rfl) (fun _ => rfl) (fun _ => rfl)
      fun _ => le_rfl

theorem placed_of_reachable (hearly : E.early = false) (hs : Run E o sBuf rBuf s) :
    Placed o rBuf s.mem (performed s) := by
  induction hs with
  | refl => exact placed_init sBuf rBuf
  | tail hs hstep ih =>
    cases hstep with
    | op p op next x mem hcode hperform =>
      rw [performed_answer]
      exact ih.answer (e := 0) hearly hs hcode hperform
    | enter p c next hcode hout =>
      rw [performed_enter]
      exact ih
    | leave p c next v hcode hin hall =>
      rw [performed_leave]
      exact ih
    | drift mem hdrift => exact ih.drift hearly hs hdrift

end CrayTests.OneSidedTest
