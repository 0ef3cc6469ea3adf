import CrayTests.CtpmStages

/-!
# The code of `ct_utils.c` refines its collective operations

Along the payload of the stages every operation of the library hands a rank what the abstract
operation hands it. The linked programs are therefore disciplined users of the key-value space, and
all their runs end with what one run of the abstract programs computes.
-/

namespace CrayTests.Ctpm
open CInteger RankProgram CommittedStore Scatter
open Kvs

variable {n : ℕ} {α : Type} {r : Fin n} {P : ℕ → ℕ → List Byte} {mem : Fin n → Contents}

theorem callEvents_gathers (pre : List (Stage n)) (len : ℕ) (src : Fin n → List Byte) :
    (callEvents Prod.snd r (Allgather.callsBefore (if gathered pre then 1 else 0))
        (gathers pre len src) : List (ℕ × Event Allgather.pmi)) =
      Allgather.rankEvents r (if gathered pre then 1 else 0) ++
        [((if gathered pre then 1 else 0) + 1, .sync (src r))] := by
  unfold gathers
  split_ifs <;> rfl

theorem gathered_gathers {pre : List (Stage n)} {len k : ℕ} {src : Fin n → List Byte}
    {c : ℕ × (Fin n → List Byte)} (hc : (gathers pre len src)[k]? = some c) :
    (Allgather.expected n (blockOf src)).gathered
      (Allgather.callsBefore (if gathered pre then 1 else 0) + k) = c.2 := by
  have hblocks (e : ℕ) : (Allgather.expected n (blockOf src)).gathered (e + 1) = src :=
    funext fun q => blockOf_eq src q e
  unfold gathers at hc
  split_ifs at hc with h
  · match k, hc with
    | 0, hc =>
      obtain rfl := Option.some.inj hc
      rw [if_pos h]
      exact hblocks 1
  · rw [if_neg h]
    match k, hc with
    | 0, hc =>
      obtain rfl := Option.some.inj hc
      rfl
    | 1, hc =>
      obtain rfl := Option.some.inj hc
      exact hblocks 0

theorem staticAfter_gathers (pre : List (Stage n)) (len : ℕ) (src : Fin n → List Byte) :
    ({ staticOf (gatherAfter pre) (pre ++ (gathers pre len src).map gatherStage) with
      gather := Allgather.learned (Equiv.refl (Fin n)) } : Static) =
      staticAfter (pre ++ (gathers pre len src).map gatherStage) := by
  have h : gathered (pre ++ (gathers pre len src).map gatherStage) = true := by
    rw [gathers, List.map_append, gathered, ← List.append_assoc, callsOf_append, List.any_append]
    exact Bool.or_true _
  rw [staticAfter, gatherAfter_gathered h]
  rfl

theorem runs_linkedAllgather {pre : List (Stage n)} {len : ℕ} {src : Fin n → List Byte}
    (mem : Contents) (hn : n < 2 ^ 31) (length_src : ∀ q, (src q).length = len)
    (hfit : n * len < 2 ^ 31) (hcan : CanGather P pre (gathers pre len src)) :
    Runs (expected n P) r (epochAfter pre) (linkedAllgather mem r (src r) (staticAfter pre))
      (stagesEvents P r pre ((gathers pre len src).map gatherStage))
      (fun q => .allgather (src q), staticAfter (pre ++ (gathers pre len src).map gatherStage))
      (epochAfter (pre ++ (gathers pre len src).map gatherStage)) := by
  have hup := runs_ctpmAllgather (r := r) hn hfit length_src (if gathered pre then 1 else 0)
    (mem.caller (callsOf pre).length)
  rw [← gatherAfter_eq, ← callEvents_gathers] at hup
  have hcalls := runs_gathers (g := gatherAfter pre) mem hn hcan hup fun k c hc =>
    gathered_gathers hc
  unfold linkedAllgather
  rw [length_src r]
  refine Runs.congr (List.append_nil _) (hcalls.bind ?_)
  dsimp only
  rw [staticAfter_gathers]
  simp only [region_scattered length_src]
  exact .pure _

/-- The key-value space can serve the rounds that are left after the stages `pre`. -/
structure CanServe (mem : Fin n → Contents) (P : ℕ → ℕ → List Byte) (pre : List (Stage n))
    (rounds : List (Round n)) : Prop where
  fits : ∀ round ∈ rounds, round.Fits
  room : (callsOf pre).length + (if gathered pre then 0 else 1) + rounds.length < 2 ^ 31
  payload_eq : P = payload (rounds.foldl (move (roundStages mem)) pre)

namespace CanServe

variable {pre : List (Stage n)} {round : Round n} {rounds : List (Round n)}
  (h : CanServe mem P pre (round :: rounds))
include h

theorem carries : Carries P pre (roundStages mem pre round) := by
  rw [h.payload_eq]
  exact .of_isPrefix (prefix_foldl_move _ _ _)

theorem next : CanServe mem P (move (roundStages mem) pre round) rounds where
  fits round' h' := h.fits round' (List.mem_cons_of_mem _ h')
  room := by
    have hroom := h.room
    rw [List.length_cons] at hroom
    rw [move, callsOf_append, List.length_append, gathered, callsOf_append, List.any_append,
      ← gathered]
    cases round with
    | barrier =>
      rw [roundStages, callsOf_barrier, List.any_nil, Bool.or_false, List.length_nil]
      omega
    | allgather len src hlen =>
      rw [roundStages, gathers]
      cases hg : gathered pre <;>
        simp [hg, gatherStage, callsOf, Stage.call?, Call.isAllgather] at hroom ⊢ <;> omega
    | bcast buffer =>
      rw [roundStages, callsOf_call, List.length_singleton]
      cases hg : gathered pre <;> simp [hg, Call.isAllgather] at hroom ⊢ <;> omega
  payload_eq := h.payload_eq

/-- The library does in the code what the abstract operation does. -/
theorem runs_round (hn : n < 2 ^ 31) :
    Runs (expected n P) r (epochAfter pre)
      ((ctUtils (mem r) r).sync (round.contribution r) (staticAfter pre))
      (stagesEvents P r pre (roundStages mem pre round))
      (round.contribution, staticAfter (move (roundStages mem) pre round))
      (epochAfter (move (roundStages mem) pre round)) := by
  have hroom := h.room
  rw [List.length_cons] at hroom
  have hfits := h.fits round List.mem_cons_self
  have hcarries := h.carries
  cases round with
  | barrier =>
    have hstatic : staticAfter (pre ++ [.barrier]) = staticAfter pre := by
      simp [staticAfter, staticOf, gatherAfter, gathered]
    rw [move, roundStages, hstatic, epochAfter_barrier, stagesEvents_singleton]
    exact runs_pmiBarrier.bind (.pure _)
  | allgather len src hlen =>
    refine runs_linkedAllgather (mem r) hn hlen hfits.2 ⟨fun c hc => ?_, ?_, hcarries⟩
    · rcases List.mem_append.mp hc with hc | hc
      · split_ifs at hc
        · cases hc
        · obtain rfl := List.mem_singleton.mp hc
          exact ⟨by norm_num, fun q => Allgather.length_intBytes _⟩
      · obtain rfl := List.mem_singleton.mp hc
        exact ⟨hfits.1, hlen⟩
    · unfold gathers
      split_ifs at hroom ⊢ <;> simp only [List.length_append, List.length_singleton,
        List.length_nil] <;> omega
  | bcast buffer =>
    -- the other ranks pass buffers of the same length
    have hlens : ∀ q : Fin n, (if (q : ℕ) = 0 then buffer else
        region ((mem q).caller (callsOf pre).length) 0 buffer.length).length = buffer.length := by
      intro q
      split_ifs
      · rfl
      · exact length_region _ _ _
    have hcall := runs_linkedBcast (r := r) (g := gatherAfter pre) (by omega) hn hcarries.head hlens
      hfits r.pos
    have hstatic (d : Fin n → List Byte) :
        staticAfter (pre ++ [.call (.bcast buffer.length) d]) =
          staticOf (gatherAfter pre) (pre ++ [.call (.bcast buffer.length) d]) := by
      simp [staticAfter, gatherAfter, gathered, Call.isAllgather]
    have hsync : (ctUtils (n := n) (mem r) r).sync ((Round.bcast buffer).contribution r)
          (staticAfter pre) =
        linkedBcast r (if (r : ℕ) = 0 then buffer else
          region ((mem r).caller (callsOf pre).length) 0 buffer.length) buffer.length
          (staticAfter pre) := by
      rw [show (Round.bcast buffer).contribution r = if (r : ℕ) = 0 then .bcast buffer else
        .receive buffer.length from rfl]
      split_ifs <;> rfl
    rw [hsync, move, roundStages, stagesEvents_singleton, hstatic]
    exact hcall

end CanServe

theorem oracle_gathered {rounds : List (Round n)} {k : ℕ} {round : Round n}
    (h : rounds[k]? = some round) : (oracle rounds).gathered (0 + k) = round.contribution := by
  change (rounds[0 + k]?.getD default).contribution = _
  rw [Nat.zero_add, h]
  rfl

/-- What a rank goes through at the key-value space, `pmi_coll_init` included. -/
def allStages (mem : Fin n → Contents) (rounds : List (Round n)) : List (Stage n) :=
  rounds.foldl (move (roundStages mem)) [.barrier]

variable (mem) in
theorem runs_linked {code : Collective n α} {rounds : List (Round n)} {a : α} {e : ℕ}
    (hn : n < 2 ^ 31) (hrounds : rounds.length + 1 < 2 ^ 31) (hfits : ∀ round ∈ rounds, round.Fits)
    (hup : Runs (oracle rounds) r 0 code (callEvents Round.contribution r 0 rounds) a e) :
    Runs (expected n (payload (allStages mem rounds))) r 0 (linked (mem r) r code)
      (stagesEvents (payload (allStages mem rounds)) r [] (allStages mem rounds))
      (a, staticAfter (allStages mem rounds)) (epochAfter (allStages mem rounds)) := by
  have hcan : CanServe mem (payload (allStages mem rounds)) [.barrier] rounds :=
    ⟨hfits, by simpa [gathered] using by omega, rfl⟩
  have hrun := Runs.link (ctUtils (mem r) r) (expected n (payload (allStages mem rounds)))
    (move (roundStages mem)) epochAfter staticAfter
    (fun pre c => stagesEvents (payload (allStages mem rounds)) r pre (roundStages mem pre c))
    (fun pre round rounds h => ⟨h.runs_round hn, h.next⟩) hcan hup fun k c hc => oracle_gathered hc
  have hevents := stagesEvents_foldl_move (P := payload (allStages mem rounds)) (r := r)
    (roundStages mem) [.barrier] rounds
  exact (runs_pmiBarrier.bind hrun).congr hevents.symm

abbrev JobState (n : ℕ) (α : Type) :=
  State (machine (List Char) (List Byte) (ℕ × List Byte) Label n) (α × Static)

def JobReachable (mem : Fin n → Contents) (code : Fin n → Collective n α) (s : JobState n α) :
    Prop :=
  Reachable (m := machine (List Char) (List Byte) (ℕ × List Byte) Label n) empty (job mem code) s

/-- Every run of the linked programs can be run to an end, no run goes on forever, and a rank that
has returned has computed `a`. -/
structure Computes (mem : Fin n → Contents) (code : Fin n → Collective n α) (a : Fin n → α) :
    Prop where
  completes : ∀ s : JobState n α, JobReachable mem code s →
    ∃ t, JobReachable mem code t ∧ Relation.ReflTransGen Step s t ∧ Halted t
  returns : ∀ s : JobState n α, JobReachable mem code s → ∀ r b, (s.proc r).code = .pure b →
    b.1 = a r
  bounded : ∃ bound, ∀ (run : ℕ → JobState n α) (k : ℕ), run 0 = start empty (job mem code) →
    (∀ i < k, Step (run i) (run (i + 1))) → k ≤ bound

theorem computes_of_runs {code : Fin n → Collective n α} {rounds : List (Round n)} {a : Fin n → α}
    {e : ℕ} (hn : n < 2 ^ 31) (hrounds : rounds.length + 1 < 2 ^ 31)
    (hfits : ∀ round ∈ rounds, round.Fits)
    (hup : ∀ r, Runs (oracle rounds) r 0 (code r) (callEvents Round.contribution r 0 rounds) (a r)
      e) :
    Computes mem code a := by
  have hruns (r : Fin n) := runs_linked mem hn hrounds hfits (hup r)
  have hdisciplined : Disciplined _ (job mem code) := disciplined_of_stages fun r => ⟨_, hruns r⟩
  have hp := hdisciplined.predicts
  refine ⟨fun s hs => hp.exists_halted hs, fun s hs r b hb => ?_,
    ⟨_, fun run k h0 hrun => hp.run_length_le run k h0 hrun⟩⟩
  rw [((hp.follows hs).done_of_halted hb).2]
  exact congrArg Prod.fst (hruns r).result_eq

theorem abstract_predicts {code : Fin n → Collective n α} {rounds : List (Round n)} {a : Fin n → α}
    {e : ℕ}
    (hup : ∀ r, Runs (oracle rounds) r 0 (code r) (callEvents Round.contribution r 0 rounds) (a r)
      e) :
    Predicts (m := abstractMachine n) (oracle rounds) () code where
  coherent r e c h := by
    rw [(hup r).trace_eq] at h
    obtain ⟨k, hk, heq⟩ := List.mem_mapIdx.mp h
    obtain ⟨rfl, hc⟩ := Prod.mk.inj heq
    rw [oracle_gathered (List.getElem?_eq_getElem hk)]
    exact (Event.sync.inj hc).symm
  resp _ _ _ _ o := o.elim
  answers _ _ _ _ o := o.elim
  even r q := (hup r).lastEpoch_eq.trans (hup q).lastEpoch_eq.symm
  still _ _ h := h

def WentThrough (rounds : List (Round n)) (t : State (abstractMachine n) α) : Prop :=
  ∀ q, (t.proc q).sent = rounds.map fun round => round.contribution q

theorem wentThrough_of_follows {code : Fin n → Collective n α} {rounds : List (Round n)}
    {t : State (abstractMachine n) α} (hf : Follows (oracle rounds) code t) (hhalt : Halted t)
    (hlast : ∀ r, lastEpoch (oracle rounds) r 0 (code r) = rounds.length) :
    WentThrough rounds t := by
  intro q
  have hlen : (t.proc q).sent.length = rounds.length := by
    obtain ⟨a, ha⟩ := hhalt q
    have hhor := hf.horizon q
    rw [ha, lastEpoch_pure, hlast q] at hhor
    rcases hf.waits q with hout | ⟨c, next, hcode, -⟩
    · exact hout.trans hhor
    · rw [ha] at hcode
      cases hcode
  refine List.ext_getElem (by rw [hlen, List.length_map]) fun k hk hk' => ?_
  have hround := oracle_gathered (List.getElem?_eq_getElem (hlen ▸ hk))
  rw [Nat.zero_add] at hround
  rw [hf.sent q k _ (List.getElem?_eq_getElem hk), hround, List.getElem_map]

/-- The abstract programs have a run that tells what all runs of the linked programs compute. -/
theorem exists_abstract_run {code : Fin n → Collective n α} {rounds : List (Round n)}
    {a : Fin n → α}
    (hup : ∀ r, Runs (oracle rounds) r 0 (code r) (callEvents Round.contribution r 0 rounds) (a r)
      rounds.length) :
    ∃ t : State (abstractMachine n) α, Reachable (m := abstractMachine n) () code t ∧
      (∀ r, (t.proc r).code = .pure (a r)) ∧ WentThrough rounds t := by
  have hp := abstract_predicts hup
  obtain ⟨t, ht, -, hhalt⟩ := hp.exists_halted .refl
  have hf := hp.follows ht
  refine ⟨t, ht, fun r => ?_, wentThrough_of_follows hf hhalt fun r => (hup r).lastEpoch_eq⟩
  obtain ⟨b, hb⟩ := hhalt r
  rw [hb, (hf.done_of_halted hb).2, (hup r).result_eq]

/-- One run of the abstract programs tells what all runs of the linked programs compute. -/
theorem linked_computes {code : Fin n → Collective n α} {rounds : List (Round n)} {a : Fin n → α}
    {t : State (abstractMachine n) α} (mem : Fin n → Contents)
    (ht : Reachable (m := abstractMachine n) () code t)
    (hreturned : ∀ r, (t.proc r).code = .pure (a r)) (hwent : WentThrough rounds t)
    (hn : n < 2 ^ 31) (hrounds : rounds.length + 1 < 2 ^ 31)
    (hfits : ∀ round ∈ rounds, round.Fits) : Computes mem code a := by
  have hΩ : contributions (oracle rounds).resp t = oracle rounds := by
    unfold contributions oracle
    congr 1
    funext e q
    rw [hwent q, List.getElem?_map]
    cases rounds[e]? <;> rfl
  have hhalt : Halted t := fun r => ⟨a r, hreturned r⟩
  have hp := predicts_of_halted (oracle rounds).resp (fun _ _ o => o.elim) (fun _ _ o => o.elim)
    (fun _ _ h => h) ht hhalt
  rw [hΩ] at hp
  have hf := hp.follows ht
  have hlast (r : Fin n) : lastEpoch (oracle rounds) r 0 (code r) = rounds.length := by
    have hhor := hf.horizon r
    rw [hreturned r, lastEpoch_pure] at hhor
    rcases hf.waits r with hout | ⟨c, next, hcode, -⟩
    · rw [← hhor, ← hout, hwent r, List.length_map]
    · rw [hreturned r] at hcode
      cases hcode
  refine computes_of_runs hn hrounds hfits fun r =>
    ⟨trace_eq_callEvents ?_ (fun k c hc => oracle_gathered hc) fun e' c h => hp.coherent r e' c h,
      ?_, hlast r⟩
  · rw [hlast r, Nat.zero_add]
  · exact (hf.done_of_halted (hreturned r)).2.symm

def gatherAndBroadcast (r : Fin 2) : Collective 2 (List Byte) := do
  let targ ← ctpmAllgather [BitVec.ofNat 8 (7 + r)]
  ctpmBarrier
  ctpmBcast r targ

def gatherAndBroadcastRounds : List (Round 2) :=
  [.allgather 1 (fun q => [BitVec.ofNat 8 (7 + q)]) (fun _ => rfl), .barrier, .bcast [7, 8]]

theorem runs_gatherAndBroadcast (r : Fin 2) :
    Runs (oracle gatherAndBroadcastRounds) r 0 (gatherAndBroadcast r)
      (callEvents Round.contribution r 0 gatherAndBroadcastRounds) [7, 8] 3 := by
  fin_cases r <;> exact ⟨rfl, rfl, rfl⟩

theorem linked_computes_pair :
    Computes (fun _ => ⟨fun _ _ => 0xff, fun _ _ => 0⟩) gatherAndBroadcast fun _ => [7, 8] := by
  obtain ⟨t, ht, hreturned, hwent⟩ := exists_abstract_run runs_gatherAndBroadcast
  refine linked_computes _ ht hreturned hwent (by norm_num) (by decide) fun round h => ?_
  fin_cases h
  · exact ⟨by norm_num, by norm_num⟩
  · trivial
  · show 2 < 2 ^ 30
    norm_num

end CrayTests.Ctpm
