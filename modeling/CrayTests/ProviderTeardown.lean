import CrayTests.ObjectLog
import CrayTests.StateContract

/-!
# Setting up and tearing down the provider

`init_gnix_prov` and `fini_gnix_prov` of `random_access.c`, as `main` runs them: whatever the first
returns, the second follows. `prov` holds the pointers of the objects, each of which is null or the
object opened at that place, and every call of libfabric may fail. A failed call does not store a
pointer; that an object is closed means that `fi_close` was called on it. `fi_close` of a null
pointer and a peer behind a null `peers` end the process.

What is opened is closed exactly once where all peers can be set up, or not even the domain can be
opened; anywhere in between the finaliser stumbles over the first peer that is missing.
-/

namespace CrayTests.GnixProvider
open ObjectLog StateContract

/-- The objects, by the place of their pointers. -/
inductive Fid
  | fab
  | dom
  | av
  | ep (i : ℕ)
  | scq (i : ℕ)
  | rcq (i : ℕ)
deriving DecidableEq

/-- The calls that may fail; `fi_close` is numbered by the earlier ones on the same object. -/
inductive Call
  | getinfo
  | fabric
  | domain
  | avOpen
  | endpoint (i : ℕ)
  | openScq (i : ℕ)
  | openRcq (i : ℕ)
  | bindScq (i : ℕ)
  | bindRcq (i : ℕ)
  | bindAv (i : ℕ)
  | enable (i : ℕ)
  | getname
  | avInsert
  | close (o : Fid) (before : ℕ)

/-- The pointers of a `struct peer` that are not null. -/
structure Peer where
  ep : Bool := false
  scq : Bool := false
  rcq : Bool := false

structure Prov where
  fab : Bool := false
  dom : Bool := false
  av : Bool := false
  peers : Option (ℕ → Peer) := none
  log : List (Event Fid) := []

inductive Fault
  | segv
  | assertion

abbrev Run := EStateM Fault Prov

def record (ev : Event Fid) : Run Unit := modify fun s => { s with log := s.log ++ [ev] }

def getPeer (i : ℕ) : Run Peer := fun s =>
  match s.peers with
  | none => .error .segv s
  | some ps => .ok (ps i) s

def setPeer (i : ℕ) (p : Peer) : Run Unit :=
  modify fun s => { s with peers := s.peers.map fun ps => Function.update ps i p }

variable (ret : Call → Bool)

def fiClose (ptr : Bool) (o : Fid) : Run Bool := do
  if ptr then do
    let s ← get
    record (.closed o)
    pure (ret (.close o (s.log.count (.closed o))))
  else
    throw .segv

/-- A pointer is cleared when its object was closed. -/
def freeEpRes (i : ℕ) : Run Unit := do
  let p ← getPeer i
  let ok ← fiClose ret p.rcq (.rcq i)
  setPeer i { p with rcq := !ok }
  let p ← getPeer i
  let ok ← fiClose ret p.scq (.scq i)
  setPeer i { p with scq := !ok }

def allocEpRes (i : ℕ) : Run Bool := do
  let p ← getPeer i
  if ret (.openScq i) then do
    setPeer i { p with scq := true }
    record (.opened (.scq i))
    if ret (.openRcq i) then do
      setPeer i { p with scq := true, rcq := true }
      record (.opened (.rcq i))
      pure true
    else do
      let _ ← fiClose ret true (.scq i)
      setPeer i { p with scq := false }
      pure false
  else
    pure false

def bindEpRes (i : ℕ) : Bool :=
  ret (.bindScq i) && ret (.bindRcq i) && ret (.bindAv i) && ret (.enable i)

/-- The pointer of the endpoint is left when it was closed. -/
def initEndpoint (i : ℕ) : Run Bool := do
  let p ← getPeer i
  if ret (.endpoint i) then do
    setPeer i { p with ep := true }
    record (.opened (.ep i))
    let ok ← allocEpRes ret i
    if ok then
      if bindEpRes ret i then
        pure true
      else do
        freeEpRes ret i
        let _ ← fiClose ret true (.ep i)
        pure false
    else do
      let _ ← fiClose ret true (.ep i)
      pure false
  else
    pure false

/-- The loop over the peers, which ends with the first that cannot be set up. -/
def initEndpoints : List ℕ → Run Bool
  | [] => pure true
  | i :: is => do
    let ok ← initEndpoint ret i
    if ok then initEndpoints is else pure false

def initFabric : Run Bool := do
  if ret .getinfo && ret .fabric then do
    modify fun s => { s with fab := true }
    record (.opened .fab)
    if ret .domain then do
      modify fun s => { s with dom := true }
      record (.opened .dom)
      pure true
    else do
      let _ ← fiClose ret true .fab
      pure false
  else
    pure false

/-- Needs an endpoint to ask for its name; what it allocates is there. -/
def initAv (numRanks : ℕ) : Run Bool := do
  let s ← get
  if ∃ i < numRanks, (s.peers.map fun ps => (ps i).ep) = some true then
    pure (ret .getname && ret .avInsert)
  else
    throw .assertion

def initGnixProv (numRanks : ℕ) : Run Bool := do
  let ok ← initFabric ret
  if ok then do
    modify fun s => { s with peers := some fun _ => {} }
    if ret .avOpen then do
      modify fun s => { s with av := true }
      record (.opened .av)
      let ok ← initEndpoints ret (List.range numRanks)
      if ok then initAv ret numRanks else pure false
    else
      pure false
  else
    pure false

def closePeer (i : ℕ) : Run Unit := do
  freeEpRes ret i
  let p ← getPeer i
  let _ ← fiClose ret p.ep (.ep i)

def closeIf (ptr : Prov → Bool) (o : Fid) : Run Unit := do
  let s ← get
  if ptr s then do
    let _ ← fiClose ret true o
  else
    pure ()

def finiGnixProv (numRanks : ℕ) : Run Unit := do
  forM (List.range numRanks) (closePeer ret)
  closeIf ret Prov.av .av
  closeIf ret Prov.dom .dom
  closeIf ret Prov.fab .fab

/-- What `main` does, without the `random_access` in between, which ends the process where it has
tables and `fi_addrs` is null. -/
def provider (numRanks : ℕ) : Run Unit := do
  let _ ← initGnixProv ret numRanks
  finiGnixProv ret numRanks

/-- `fi_close` was called exactly once on whatever was opened when the process ends, in whichever
way. -/
def TeardownMatches (numRanks : ℕ) : Prop := Balanced (last (provider ret numRanks {})).log

def FabricOpens : Prop := ret .getinfo ∧ ret .fabric ∧ ret .domain

def PeerOpens (i : ℕ) : Prop :=
  ret (.endpoint i) ∧ ret (.openScq i) ∧ ret (.openRcq i) ∧ bindEpRes ret i

def peerFids (i : ℕ) : List Fid := [.ep i, .scq i, .rcq i]

def fullPeer : Peer := ⟨true, true, true⟩

variable {ret} {s s' : Prov} {ps : ℕ → Peer} {i n : ℕ}

theorem getPeer_eq (hs : s.peers = some ps) (i : ℕ) : getPeer i s = .ok (ps i) s := by
  unfold getPeer
  rw [hs]

theorem setPeer_eq (hs : s.peers = some ps) (i : ℕ) (p : Peer) :
    setPeer i p s = .ok () { s with peers := some (Function.update ps i p) } := by
  change EStateM.Result.ok () { s with peers := s.peers.map _ } = _
  rw [hs]
  rfl

theorem fiClose_eq (ret : Call → Bool) (o : Fid) (s : Prov) :
    fiClose ret true o s =
      .ok (ret (.close o (s.log.count (.closed o)))) { s with log := s.log ++ [.closed o] } := rfl


theorem record_eq (ev : Event Fid) (s : Prov) :
    record ev s = .ok () { s with log := s.log ++ [ev] } := rfl

/-- A peer that can be set up is. -/
theorem initEndpoint_opens (h : PeerOpens ret i) (hs : s.peers = some ps) :
    initEndpoint ret i s = .ok true { s with
      peers := some (Function.update ps i fullPeer)
      log := s.log ++ (peerFids i).map .opened } := by
  obtain ⟨hep, hscq, hrcq, hbind⟩ := h
  simp [initEndpoint, allocEpRes, bind_apply, map_apply, getPeer_eq, setPeer_eq, record_eq, hs,
    hep, hscq, hrcq, hbind, peerFids, fullPeer]

/-- What a peer that could not be set up leaves behind: its receive queue is not there, or an attempt
was made to close it. -/
structure Abandoned (s s' : Prov) (ps : ℕ → Peer) (i : ℕ) : Prop where
  peers : ∃ p, s'.peers = some (Function.update ps i p) ∧
    (p.rcq = true → .opened (.rcq i) ∈ s'.log ∧ .closed (.rcq i) ∈ s'.log)
  log : ∃ evs, s'.log = s.log ++ evs ∧ .closed .dom ∉ evs

theorem initEndpoint_fails (h : ¬ PeerOpens ret i) (hs : s.peers = some ps)
    (hnull : ps i = {}) : ∃ s', initEndpoint ret i s = .ok false s' ∧ Abandoned s s' ps i := by
  by_cases hep : ret (.endpoint i)
  · by_cases hscq : ret (.openScq i)
    · by_cases hrcq : ret (.openRcq i)
      · have hbind : bindEpRes ret i = false := by
          by_contra hbind
          exact h ⟨hep, hscq, hrcq, by simpa using hbind⟩
        let opens : List (Event Fid) := (peerFids i).map .opened
        let log := s.log ++ opens
        have hrun : initEndpoint ret i s = .ok false { s with
            peers := some (Function.update ps i ⟨true,
              !ret (.close (.scq i) (log.count (.closed (.scq i)))),
              !ret (.close (.rcq i) (log.count (.closed (.rcq i))))⟩)
            log := log ++ [.closed (.rcq i), .closed (.scq i), .closed (.ep i)] } := by
          simp [initEndpoint, allocEpRes, freeEpRes, bind_apply, map_apply, getPeer_eq, setPeer_eq,
            record_eq, fiClose_eq, hs, hep, hscq, hrcq, hbind, log, opens, peerFids]
        exact ⟨_, hrun, ⟨_, rfl, fun _ => by simp [log, opens, peerFids]⟩,
          opens ++ [.closed (.rcq i), .closed (.scq i), .closed (.ep i)], by simp [log],
          by simp [opens]⟩
      · have hrun : initEndpoint ret i s = .ok false { s with
            peers := some (Function.update ps i ⟨true, false, false⟩)
            log := s.log ++ [.opened (.ep i), .opened (.scq i), .closed (.scq i),
              .closed (.ep i)] } := by
          simp [initEndpoint, allocEpRes, bind_apply, map_apply, getPeer_eq, setPeer_eq,
            record_eq, fiClose_eq, hs, hep, hscq, hrcq, hnull]
        exact ⟨_, hrun, ⟨_, rfl, Bool.noConfusion⟩, _, rfl, by simp⟩
    · have hrun : initEndpoint ret i s = .ok false { s with
          peers := some (Function.update ps i ⟨true, false, false⟩)
          log := s.log ++ [.opened (.ep i), .closed (.ep i)] } := by
        simp [initEndpoint, allocEpRes, bind_apply, map_apply, getPeer_eq, setPeer_eq,
          record_eq, fiClose_eq, hs, hep, hscq, hnull]
      exact ⟨_, hrun, ⟨_, rfl, Bool.noConfusion⟩, _, rfl, by simp⟩
  · have hrun : initEndpoint ret i s = .ok false s := by
      simp [initEndpoint, bind_apply, pure_apply, getPeer_eq, hs, hep]
    refine ⟨_, hrun, ⟨{}, ?_, Bool.noConfusion⟩, [], (List.append_nil _).symm, List.not_mem_nil⟩
    rw [← hnull, Function.update_eq_self, hs]

/-- A peer whose pointers are stored is closed. -/
theorem closePeer_full (ret : Call → Bool) (hs : s.peers = some ps) (hfull : ps i = fullPeer) :
    ∃ p, closePeer ret i s = .ok () { s with
      peers := some (Function.update ps i p)
      log := s.log ++ [.closed (.rcq i), .closed (.scq i), .closed (.ep i)] } := by
  refine ⟨⟨true, !ret (.close (.scq i) (s.log.count (.closed (.scq i)))),
    !ret (.close (.rcq i) (s.log.count (.closed (.rcq i))))⟩, ?_⟩
  simp [closePeer, freeEpRes, bind_apply, map_apply, getPeer_eq, setPeer_eq, fiClose_eq, hs,
    hfull, fullPeer]

def Extends (s t : Prov) : Prop := s.log <+: t.log

instance : IsPreorder Prov Extends where
  refl s := List.prefix_refl s.log
  trans _ _ _ := List.IsPrefix.trans

theorem keeps_getPeer (i : ℕ) : Keeps Extends (getPeer i) fun _ => True := by
  refine ⟨fun s => ?_, fun _ _ _ _ => trivial⟩
  unfold getPeer
  cases s.peers <;> exact List.prefix_refl s.log

theorem keeps_setPeer (i : ℕ) (p : Peer) : Keeps Extends (setPeer i p) fun _ => True :=
  ⟨fun s => List.prefix_refl s.log, fun _ _ _ _ => trivial⟩

theorem keeps_fiClose (ret : Call → Bool) (ptr : Bool) (o : Fid) :
    Keeps Extends (fiClose ret ptr o) fun _ => True := by
  refine .ite (fun _ => ?_) fun _ => .throw _
  exact ⟨fun s => List.prefix_append s.log _, fun _ _ _ _ => trivial⟩

theorem keeps_freeEpRes (ret : Call → Bool) (i : ℕ) :
    Keeps Extends (freeEpRes ret i) fun _ => True :=
  (keeps_getPeer i).bind fun _ _ => (keeps_fiClose ret _ _).bind fun _ _ =>
    (keeps_setPeer i _).bind fun _ _ => (keeps_getPeer i).bind fun _ _ =>
    (keeps_fiClose ret _ _).bind fun _ _ => keeps_setPeer i _

theorem keeps_closePeer (ret : Call → Bool) (i : ℕ) :
    Keeps Extends (closePeer ret i) fun _ => True :=
  (keeps_freeEpRes ret i).bind fun _ _ => (keeps_getPeer i).bind fun _ _ =>
    (keeps_fiClose ret _ _).bind fun _ _ => .pure trivial

theorem keeps_closeIf (ret : Call → Bool) (ptr : Prov → Bool) (o : Fid) :
    Keeps Extends (closeIf ret ptr o) fun _ => True := by
  refine ⟨fun s => ?_, fun _ _ _ _ => trivial⟩
  unfold closeIf
  rw [bind_of_ok (get_apply s)]
  split_ifs
  · exact List.prefix_append s.log _
  · exact List.prefix_refl s.log

/-- Where the queue of an abandoned peer is still there, it is closed again. -/
theorem closePeer_again (ret : Call → Bool) (hs : s.peers = some ps) (hrcq : (ps i).rcq = true) :
    s.log ++ [.closed (.rcq i)] <+: (last (closePeer ret i s)).log := by
  have hfree : s.log ++ [.closed (.rcq i)] <+: (last (freeEpRes ret i s)).log := by
    unfold freeEpRes
    rw [bind_of_ok (getPeer_eq hs i), hrcq]
    exact Keeps.last_bind (R := Extends) (fiClose ret true (.rcq i)) (fun _ =>
      (keeps_setPeer i _).bind fun _ _ => (keeps_getPeer i).bind fun _ _ =>
        (keeps_fiClose ret _ _).bind fun _ _ => keeps_setPeer i _) s
  exact hfree.trans (Keeps.last_bind (R := Extends) (P := fun _ => True) (freeEpRes ret i) (fun _ =>
    (keeps_getPeer i).bind fun _ _ => (keeps_fiClose ret _ _).bind fun _ _ => .pure trivial) s)

/-- A null pointer to the queue ends the process. -/
theorem closePeer_null (ret : Call → Bool) (hs : s.peers = some ps) (hrcq : (ps i).rcq = false) :
    closePeer ret i s = .error .segv s := by
  have hfree : freeEpRes ret i s = .error .segv s := by
    unfold freeEpRes
    rw [bind_of_ok (getPeer_eq hs i), hrcq]
    rfl
  unfold closePeer
  exact bind_of_error hfree

def setUp (s : Prov) (ps : ℕ → Peer) (l : List ℕ) : Prov :=
  { s with
    peers := some fun j => if j ∈ l then fullPeer else ps j
    log := s.log ++ (l.flatMap peerFids).map .opened }

theorem setUp_nil (hs : s.peers = some ps) : setUp s ps [] = s := by
  obtain ⟨fab, dom, av, peers, log⟩ := s
  obtain rfl : peers = some ps := hs
  simp [setUp]

/-- Peers that can be set up are set up one after the other. -/
theorem initEndpoints_append (ps : ℕ → Peer) {l : List ℕ} (hl : ∀ j ∈ l, PeerOpens ret j)
    (rest : List ℕ) (hs : s.peers = some ps) :
    initEndpoints ret (l ++ rest) s = initEndpoints ret rest (setUp s ps l) := by
  induction l generalizing s ps with
  | nil => rw [setUp_nil hs, List.nil_append]
  | cons i l ih =>
    have hi := initEndpoint_opens (hl i List.mem_cons_self) hs
    rw [List.cons_append, initEndpoints, bind_of_ok hi, if_pos rfl,
      ih _ (fun j hj => hl j (List.mem_cons_of_mem i hj)) rfl]
    congr 1
    simp only [setUp, List.flatMap_cons, List.map_append, List.append_assoc]
    congr 2
    funext j
    by_cases hj : j ∈ l
    · simp [hj]
    · by_cases hji : j = i
      · subst hji
        simp [hj]
      · simp [hj, hji]

def closeOrder (i : ℕ) : List Fid := [.rcq i, .scq i, .ep i]

/-- Peers whose pointers are stored are closed one after the other. -/
theorem forM_closePeer (ret : Call → Bool) {l : List ℕ} (hnodup : l.Nodup)
    (hs : s.peers = some ps) (hfull : ∀ j ∈ l, ps j = fullPeer) :
    ∃ ps', forM l (closePeer ret) s = .ok () { s with
        peers := some ps'
        log := s.log ++ (l.flatMap closeOrder).map .closed } ∧
      ∀ j ∉ l, ps' j = ps j := by
  induction l generalizing s ps with
  | nil =>
    refine ⟨ps, ?_, fun _ _ => rfl⟩
    obtain ⟨fab, dom, av, peers, log⟩ := s
    obtain rfl : peers = some ps := hs
    simp [pure_apply]
  | cons i l ih =>
    obtain ⟨hi, hnodup⟩ := List.nodup_cons.mp hnodup
    obtain ⟨p, hclose⟩ := closePeer_full ret hs (hfull i List.mem_cons_self)
    have hrest : ∀ j ∈ l, Function.update ps i p j = fullPeer := by
      intro j hj
      rw [Function.update_of_ne (ne_of_mem_of_not_mem hj hi)]
      exact hfull j (List.mem_cons_of_mem i hj)
    obtain ⟨ps', hforM, hsame⟩ := ih hnodup (s := { s with
      peers := some (Function.update ps i p)
      log := s.log ++ [.closed (.rcq i), .closed (.scq i), .closed (.ep i)] }) rfl hrest
    refine ⟨ps', ?_, fun j hj => ?_⟩
    · rw [List.forM_cons, bind_of_ok hclose, hforM]
      simp [closeOrder]
    · rw [List.mem_cons, not_or] at hj
      rw [hsame j hj.2, Function.update_of_ne hj.1]

def openOrder (numRanks : ℕ) : List Fid :=
  [.fab, .dom, .av] ++ (List.range numRanks).flatMap peerFids

theorem nodup_openOrder (numRanks : ℕ) : (openOrder numRanks).Nodup := by
  refine List.nodup_append.mpr ⟨by decide, List.nodup_flatMap.mpr ⟨fun i _ => ?_, ?_⟩, ?_⟩
  · simp [peerFids]
  · refine List.nodup_range.imp fun {i j} hne o hi hj => ?_
    simp only [peerFids, List.mem_cons, List.not_mem_nil, or_false] at hi hj
    rcases hi with rfl | rfl | rfl <;> rcases hj with h | h | h <;> cases h <;> exact hne rfl
  · intro a ha b hb
    simp only [List.mem_cons, List.not_mem_nil, or_false] at ha
    simp only [peerFids, List.mem_flatMap, List.mem_cons, List.not_mem_nil, or_false] at hb
    obtain ⟨i, -, hb⟩ := hb
    rcases ha with rfl | rfl | rfl <;> rcases hb with rfl | rfl | rfl <;> exact Fid.noConfusion

theorem perm_openOrder (numRanks : ℕ) :
    ((List.range numRanks).flatMap closeOrder ++ [Fid.av, .dom, .fab]).Perm (openOrder numRanks) := by
  have hpeer (i : ℕ) : (closeOrder i).Perm (peerFids i) := by
    rw [show closeOrder i = (peerFids i).reverse from rfl]
    exact List.reverse_perm _
  have hfirst : ([.av, .dom, .fab] : List Fid).Perm [.fab, .dom, .av] := by decide
  exact List.perm_append_comm.trans
    (hfirst.append (List.Perm.flatMap_left _ fun i _ => hpeer i))

theorem exists_range_eq {i n : ℕ} (hi : i < n) :
    ∃ rest, List.range n = List.range i ++ i :: rest := by
  obtain ⟨m, rfl⟩ := Nat.exists_eq_add_of_lt hi
  refine ⟨(List.range m).map fun k => i + (k + 1), ?_⟩
  rw [Nat.add_assoc, List.range_add, List.range_succ_eq_map]
  simp

section Provider

variable (hfabric : FabricOpens ret)
include hfabric

def started : Prov :=
  { fab := true
    dom := true
    av := true
    peers := some fun _ => {}
    log := [.opened .fab, .opened .dom, .opened .av] }

theorem initFabric_opens :
    initFabric ret {} = .ok true { ({} : Prov) with
      fab := true
      dom := true
      log := [.opened .fab, .opened .dom] } := by
  obtain ⟨hinfo, hfab, hdom⟩ := hfabric
  simp [initFabric, bind_apply, map_apply, modify_apply, record_eq, hinfo, hfab, hdom]

theorem initGnixProv_started (hav : ret .avOpen) (numRanks : ℕ) :
    initGnixProv ret numRanks {} = (do
      let ok ← initEndpoints ret (List.range numRanks)
      if ok then initAv ret numRanks else pure false : Run Bool) started := by
  unfold initGnixProv
  rw [bind_of_ok (initFabric_opens hfabric), if_pos rfl, bind_of_ok (modify_apply _ _),
    if_pos hav, bind_of_ok (modify_apply _ _), bind_of_ok (record_eq _ _)]
  rfl

/-- When everything can be set up, everything is closed. -/
theorem teardownMatches_of_opens {numRanks : ℕ} (hpos : 0 < numRanks) (hav : ret .avOpen)
    (hpeers : ∀ i < numRanks, PeerOpens ret i) : TeardownMatches ret numRanks := by
  let ranks := List.range numRanks
  let t := setUp started (fun _ => {}) ranks
  have hinit : initGnixProv ret numRanks {} = .ok (ret .getname && ret .avInsert) t := by
    rw [initGnixProv_started hfabric hav]
    have hloop : initEndpoints ret ranks started = .ok true t := by
      have h := initEndpoints_append (fun _ => {}) (fun j hj => hpeers j (List.mem_range.mp hj)) []
        (show started.peers = some _ from rfl)
      rwa [List.append_nil] at h
    rw [bind_of_ok hloop, if_pos rfl]
    unfold initAv
    rw [bind_of_ok (get_apply t), if_pos]
    · rfl
    · exact ⟨0, hpos, by simp [t, setUp, ranks, hpos, fullPeer]⟩
  obtain ⟨ps', hpeers, -⟩ := forM_closePeer ret (s := t) List.nodup_range rfl
    (l := ranks) fun j hj => if_pos hj
  have hrun : provider ret numRanks {} = .ok () { t with
      peers := some ps'
      log := t.log ++ (ranks.flatMap closeOrder).map .closed ++
        [.closed .av, .closed .dom, .closed .fab] } := by
    unfold provider finiGnixProv
    rw [bind_of_ok hinit, bind_of_ok hpeers]
    simp [closeIf, bind_apply, map_apply, get_apply, fiClose_eq, t, setUp, started]
  rw [TeardownMatches, hrun]
  refine balanced_of_perm _ _ (nodup_openOrder numRanks) (perm_openOrder numRanks) ?_
  simp [last, t, setUp, started, openOrder, ranks]

/-- When peer `i` is the first that cannot be set up, `init_gnix_prov` stops at it and leaves the
pointers of those before it. -/
theorem initGnixProv_abandons {numRanks i : ℕ} (hav : ret .avOpen) (hi : i < numRanks)
    (hbefore : ∀ j < i, PeerOpens ret j) (hfails : ¬ PeerOpens ret i) :
    ∃ s', initGnixProv ret numRanks {} = .ok false s' ∧
      Abandoned (setUp started (fun _ => {}) (List.range i)) s'
        (fun j => if j ∈ List.range i then fullPeer else {}) i := by
  obtain ⟨rest, hranks⟩ := exists_range_eq hi
  obtain ⟨s', hrun, habandoned⟩ := initEndpoint_fails
    (s := setUp started (fun _ => {}) (List.range i)) hfails rfl (if_neg List.not_mem_range_self)
  have hloop : initEndpoints ret (List.range i ++ i :: rest) started = .ok false s' := by
    rw [initEndpoints_append (fun _ => {}) (fun j hj => hbefore j (List.mem_range.mp hj)) _ rfl,
      initEndpoints, bind_of_ok hrun]
    rfl
  refine ⟨s', ?_, habandoned⟩
  rw [initGnixProv_started hfabric hav, hranks, bind_of_ok hloop]
  rfl

/-- Those before peer `i` are then closed, and it is the next, with its pointers as `init_endpoint`
left them. -/
theorem provider_abandons {numRanks i : ℕ} (hav : ret .avOpen) (hi : i < numRanks)
    (hbefore : ∀ j < i, PeerOpens ret j) (hfails : ¬ PeerOpens ret i) :
    ∃ (u : Prov) (ps : ℕ → Peer) (rest : List ℕ), provider ret numRanks {} = ((do
        closePeer ret i
        forM rest (closePeer ret)
        closeIf ret Prov.av .av
        closeIf ret Prov.dom .dom
        closeIf ret Prov.fab .fab : Run Unit) u) ∧
      u.peers = some ps ∧ .opened .dom ∈ u.log ∧ .closed .dom ∉ u.log ∧
      ((ps i).rcq = true → .opened (.rcq i) ∈ u.log ∧ .closed (.rcq i) ∈ u.log) := by
  obtain ⟨rest, hranks⟩ := exists_range_eq hi
  obtain ⟨s', hinit, ⟨p, hpeers, hclosed⟩, evs, hlog, hevs⟩ :=
    initGnixProv_abandons hfabric hav hi hbefore hfails
  obtain ⟨ps', hforM, hsame⟩ := forM_closePeer ret List.nodup_range hpeers fun j hj => by
    rw [Function.update_of_ne (Nat.ne_of_lt (List.mem_range.mp hj))]
    exact if_pos hj
  have hp : ps' i = p := by rw [hsame i List.not_mem_range_self, Function.update_self]
  refine ⟨{ s' with
    peers := some ps'
    log := s'.log ++ ((List.range i).flatMap closeOrder).map .closed }, ps', rest, ?_, rfl, ?_, ?_,
    ?_⟩
  · unfold provider finiGnixProv
    rw [bind_of_ok hinit, hranks, List.forM_append, bind_assoc, bind_of_ok hforM, List.forM_cons,
      bind_assoc]
  · simp [hlog, setUp, started]
  · simp [hlog, hevs, setUp, started, closeOrder]
  · rw [hp]
    intro hrcq
    obtain ⟨hopened, hclosed⟩ := hclosed hrcq
    exact ⟨List.mem_append_left _ hopened, List.mem_append_left _ hclosed⟩

/-- What was not set up ends the process before the domain is closed, or is closed twice. -/
theorem not_teardownMatches_of_fails {numRanks i : ℕ} (hav : ret .avOpen) (hi : i < numRanks)
    (hbefore : ∀ j < i, PeerOpens ret j) (hfails : ¬ PeerOpens ret i) :
    ¬ TeardownMatches ret numRanks := by
  obtain ⟨u, ps, rest, hrun, hps, hopened, hnot, hrcq⟩ :=
    provider_abandons hfabric hav hi hbefore hfails
  unfold TeardownMatches
  rw [hrun]
  cases hnull : (ps i).rcq with
  | false =>
    rw [bind_of_error (closePeer_null ret hps hnull)]
    exact not_balanced_of_not_mem hopened hnot
  | true =>
    obtain ⟨hmem, hagain⟩ := hrcq hnull
    have hclose := closePeer_again ret hps hnull
    have htail := Keeps.last_bind (R := Extends) (closePeer ret i) (fun _ =>
      (Keeps.forM (keeps_closePeer ret) rest).bind fun _ _ =>
      (keeps_closeIf ret Prov.av .av).bind fun _ _ =>
      (keeps_closeIf ret Prov.dom .dom).bind fun _ _ => keeps_closeIf ret Prov.fab .fab) u
    have hfinal := hclose.trans htail
    have htwice : 2 ≤ (u.log ++ [Event.closed (Fid.rcq i)]).count (.closed (.rcq i)) := by
      have hone : 0 < u.log.count (.closed (.rcq i)) := List.count_pos_iff.mpr hagain
      rw [List.count_append, List.count_singleton_self]
      omega
    exact not_balanced_of_twice (hfinal.subset (List.mem_append_left _ hmem))
      (htwice.trans (hfinal.sublist.count_le _))

/-- Without an address vector the first peer ends the process. -/
theorem not_teardownMatches_of_av (hav : ¬ ret .avOpen) {numRanks : ℕ} (hpos : 0 < numRanks) :
    ¬ TeardownMatches ret numRanks := by
  obtain ⟨m, rfl⟩ := Nat.exists_eq_add_of_lt hpos
  let t : Prov :=
    { fab := true, dom := true, peers := some fun _ => {}, log := [.opened .fab, .opened .dom] }
  have hinit : initGnixProv ret (0 + m + 1) {} = .ok false t := by
    unfold initGnixProv
    rw [bind_of_ok (initFabric_opens hfabric), if_pos rfl, bind_of_ok (modify_apply _ _),
      if_neg hav]
    rfl
  have hrun : provider ret (0 + m + 1) {} = .error .segv t := by
    unfold provider finiGnixProv
    rw [bind_of_ok hinit, List.range_succ_eq_map, List.forM_cons]
    exact bind_of_error (bind_of_error (closePeer_null ret rfl rfl))
  rw [TeardownMatches, hrun]
  exact not_balanced_of_not_mem (o := .dom) (by simp [last, t]) (by simp [last, t])

end Provider

/-- Without a domain there are no peers: the process ends at the first, and what was opened was
closed. -/
theorem teardownMatches_of_no_fabric (hfabric : ¬ FabricOpens ret) {numRanks : ℕ}
    (hpos : 0 < numRanks) : TeardownMatches ret numRanks := by
  obtain ⟨m, rfl⟩ := Nat.exists_eq_add_of_lt hpos
  have hinit : ∃ s', initFabric ret {} = .ok false s' ∧ s'.peers = none ∧ Balanced s'.log := by
    by_cases hopen : ret .getinfo && ret .fabric
    · have hdom : ¬ ret .domain := by
        intro hdom
        rw [Bool.and_eq_true] at hopen
        exact hfabric ⟨hopen.1, hopen.2, hdom⟩
      refine ⟨{ fab := true, log := [.opened .fab, .closed .fab] }, ?_, rfl, ?_⟩
      · unfold initFabric
        rw [if_pos hopen, bind_of_ok (modify_apply _ _), bind_of_ok (record_eq _ _), if_neg hdom]
        rfl
      · exact balanced_of_perm [.fab] [.fab] (by simp) (.refl _) rfl
    · refine ⟨{}, ?_, rfl, ?_⟩
      · unfold initFabric
        rw [if_neg hopen]
        rfl
      · exact balanced_of_perm [] [] .nil (.refl _) rfl
  obtain ⟨s', hrun, hpeers, hbalanced⟩ := hinit
  have hprov : provider ret (0 + m + 1) {} = .error .segv s' := by
    have hinit : initGnixProv ret (0 + m + 1) {} = .ok false s' := bind_of_ok hrun
    have hpeer : getPeer 0 s' = .error .segv s' := by
      unfold getPeer
      rw [hpeers]
    unfold provider finiGnixProv
    rw [bind_of_ok hinit, List.range_succ_eq_map, List.forM_cons]
    exact bind_of_error (bind_of_error (bind_of_error (bind_of_error hpeer)))
  rw [TeardownMatches, hprov]
  exact hbalanced

/-- For every number of ranks and all failures of libfabric, the objects that were opened are closed
exactly once, and no others, if and only if the domain cannot be opened or the address vector and all
peers can be set up. -/
theorem teardownMatches_iff (ret : Call → Bool) (numRanks : ℕ) (hpos : 0 < numRanks) :
    TeardownMatches ret numRanks ↔
      ¬ FabricOpens ret ∨ ret .avOpen ∧ ∀ i < numRanks, PeerOpens ret i := by
  by_cases hfabric : FabricOpens ret
  · rw [or_iff_right (not_not_intro hfabric)]
    constructor
    · intro h
      by_cases hav : ret .avOpen
      · refine ⟨hav, fun i => ?_⟩
        -- the first peer that cannot be set up is the one that matters
        induction i using Nat.strongRecOn with
        | ind i ih =>
          intro hi
          by_contra hfails
          exact not_teardownMatches_of_fails hfabric hav hi
            (fun j hj => ih j hj (hj.trans hi)) hfails h
      · exact absurd h (not_teardownMatches_of_av hfabric hav hpos)
    · exact fun h => teardownMatches_of_opens hfabric hpos h.1 h.2
  · exact iff_of_true (teardownMatches_of_no_fabric hfabric hpos) (.inl hfabric)

def noEndpoint : Call → Bool
  | .endpoint 0 => false
  | _ => true

theorem teardownMatches_iff_noEndpoint :
    TeardownMatches noEndpoint 1 ↔
      ¬ FabricOpens noEndpoint ∨ noEndpoint .avOpen ∧ ∀ i < 1, PeerOpens noEndpoint i :=
  teardownMatches_iff noEndpoint 1 Nat.one_pos

/-- The process ends at the null pointer to a queue, with the domain open. -/
theorem not_teardownMatches_noEndpoint :
    (last (provider noEndpoint 1 {})).log = [.opened .fab, .opened .dom, .opened .av] ∧
      ¬ TeardownMatches noEndpoint 1 := by
  have hlog : (last (provider noEndpoint 1 {})).log = [.opened .fab, .opened .dom, .opened .av] :=
    rfl
  refine ⟨hlog, ?_⟩
  rw [TeardownMatches, hlog]
  exact not_balanced_of_not_mem (o := .dom) (by decide) (by decide)

end CrayTests.GnixProvider
