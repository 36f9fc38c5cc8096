import Cryptopuff.Store.Invariant
import Cryptopuff.Database.Tx
import Mathlib.Data.String.Basic

/-!
# Peers (server.go, db.go)

A node learns peers from `POST /api/peers`, from the lists `fetchPeers` downloads and from the
well-known peers `Serve` starts with, and hands each to `validateAndAddPeer`: it lowercases the
address, drops the node's own `extAddr` and a stored peer, and starts a goroutine that pings the
peer and calls `DB.AddPeer`. Every minute `periodicFullPeerSync` reads the stored peers and
starts one goroutine each, which calls `DB.RemovePeer` when the ping failed and the peer is not
well-known. No other method writes `peers` (`Op.run_peers`).

`PeerNode` is the store with the goroutines in flight, and `Server.PeerStep` one atomic step of
one of them or one transaction of another method. Over every run from a new database, every
stored peer is its own lowercase form and not `extAddr`, so addresses that differ only in case
share one row, and a well-known peer once stored stays stored (`peers_lowercase`).
`strings.ToLower` is the parameter `toLower`; what needs it assumes it idempotent.

`DB.AddPeer` sets its captured `created` in the attempt whose `INSERT OR IGNORE` inserted a row,
and nothing clears it when that attempt's `COMMIT` fails. A call running alone still returns
the right `created`, whatever fails: a rolled-back attempt set it only if the row was missing, and
the row is still missing (`DB.addPeer_alone`). When no `COMMIT` fails, interleaved
calls for one peer hold `created = true` once per row they inserted (`interleave_addPeer`); when
the first `COMMIT` fails and a second call inserts the row, the first call's retry inserts
nothing and both return `created = true` (`addPeer_created_twice`).
-/

namespace Cryptopuff

/-! ## Only `AddPeer` and `RemovePeer` write `peers` -/

/-- `AddPeer` and `RemovePeer`, the methods that write `peers`. -/
def Op.writesPeers : Op → Bool
  | .addPeer _ | .removePeer _ => true
  | _ => false

section Frame

variable {C : Crypto} {S S' : Store}

theorem Store.addBlock_peers {b : Block} (hW : S.WellFormed) (h : addBlock C b S = .ok S') :
    S'.peers = S.peers := by
  rcases Store.addBlock_eq_ok hW h with ⟨-, rfl⟩ | ⟨_, _, -, -, -, -, hA⟩
  · rfl
  · exact hA.touches.peers_eq

theorem Store.foldlM_addBlock_peers : ∀ (bs : List Block) {S S' : Store}, S.WellFormed →
    bs.foldlM (fun S b => addBlock C b S) S = .ok S' → S'.peers = S.peers
  | [], _, _, _, h => by cases Except.ok.inj h; rfl
  | b :: bs, S, S', hW, h => by
      rw [List.foldlM_cons, Except.bind_eq_ok] at h
      obtain ⟨S1, h1, h2⟩ := h
      rw [Store.foldlM_addBlock_peers bs (hW.addBlock h1) h2, Store.addBlock_peers hW h1]

/-- A transaction of a method other than `AddPeer` and `RemovePeer` leaves `peers` as it was. -/
theorem Op.run_peers {op : Op} (hW : S.WellFormed) (hop : op.writesPeers = false)
    (h : op.run C S = .ok S') : S'.peers = S.peers := by
  cases op with
  | addBlock b => exact Store.addBlock_peers hW h
  | addBlocks bs =>
      simp only [Op.run, DB.addBlocks] at h
      split at h
      · exact Store.foldlM_addBlock_peers _ hW h
      · cases Except.ok.inj h; rfl
  | addTx s =>
      obtain ⟨-, -, -, rfl⟩ := DB.addTx_eq_ok h
      exact Store.addTx_peers _
  | pendingTxs tip limit =>
      simp only [Op.run, Except.map] at h
      split at h
      · cases h
      · next r hr =>
          cases Except.ok.inj h
          obtain ⟨_, -, he⟩ := DB.pendingTxs_store (L := r.2) hr
          rw [he]
  | addPeer p => cases hop
  | removePeer p => cases hop

end Frame

/-! ## Peer discovery -/

/-- The fields of `Server` that peer discovery reads: `extAddr` and the keys of
`wellKnownPeers`. -/
structure Server where
  extAddr : String
  wellKnownPeers : List String

section Discovery

variable (toLower : String → String)

/-- `createWellKnownPeers`: the peers, lowercased. -/
def createWellKnownPeers (peers : List String) : List String := peers.map toLower

/-- `NewServer`, on the fields peer discovery reads: `extAddr` and the well-known peers
lowercased. -/
def newServer (extAddr : String) (peers : List String) : Server :=
  ⟨toLower extAddr, createWellKnownPeers toLower peers⟩

/-- `DB.PeerExists(peer)`: `SELECT 1 FROM peers WHERE peer = ?` finds a row. -/
def Store.peerExists (S : Store) (peer : String) : Bool := decide (peer ∈ S.peers)

/-- `Server.validateAndAddPeer(peer)`, `PeerExists` answering `peerExists`: the error it
returns, or the lowercased peer for which it starts the goroutine that pings it and adds it
(`none`: no goroutine). -/
def Server.validateAndAddPeer (srv : Server) (peerExists : String → Except String Bool)
    (peer : String) : Except String (Option String) :=
  let peer := toLower peer
  if peer = srv.extAddr then .ok none
  else
    match peerExists peer with
    | .error e => .error ("cryptopuff: failed to check if peer exists: " ++ e)
    | .ok true => .ok none
    | .ok false => .ok (some peer)

/-- The test of the goroutine `periodicFullPeerSync` starts for `peer`: remove the peer when its
ping failed and it is not well-known. -/
def Server.shouldRemove (srv : Server) (peer : String) (pingOk : Bool) : Bool :=
  !pingOk && !decide (peer ∈ srv.wellKnownPeers)

/-- The peer table and the goroutines in flight that will write it: in `adding` the peer of
each goroutine `validateAndAddPeer` started that has not called `AddPeer` yet, in `syncing` the
peer of each goroutine `periodicFullPeerSync` started that has not passed its test yet. -/
structure PeerNode where
  store : Store
  adding : List String
  syncing : List String

/-- A new database and no goroutine. -/
def PeerNode.init (C : Crypto) : PeerNode := ⟨migrate C, [], []⟩

/-- One atomic step of the node as far as `peers` is concerned. -/
inductive Server.PeerStep (srv : Server) (C : Crypto) : PeerNode → PeerNode → Prop
  /-- `validateAndAddPeer(peer)`, `PeerExists` answering from the store, starts a goroutine. -/
  | validate {N : PeerNode} (peer p : String)
      (h : srv.validateAndAddPeer toLower (fun q => .ok (N.store.peerExists q)) peer = .ok (some p)) :
      PeerStep srv C N { N with adding := N.adding ++ [p] }
  /-- The goroutine's ping answered and the attempt of `AddPeer(p)` that committed ran
  `INSERT OR IGNORE`. -/
  | addPeer {N : PeerNode} (p : String) (hp : p ∈ N.adding) :
      PeerStep srv C N { N with store := (N.store.insertPeer p).1, adding := N.adding.erase p }
  /-- The goroutine's ping or its `AddPeer(p)` failed. -/
  | abandon {N : PeerNode} (p : String) (hp : p ∈ N.adding) :
      PeerStep srv C N { N with adding := N.adding.erase p }
  /-- The ticker of `periodicFullPeerSync` fires: `Peers()`, and one goroutine per peer. -/
  | tick {N : PeerNode} : PeerStep srv C N { N with syncing := N.syncing ++ N.store.peers }
  /-- A goroutine of `periodicFullPeerSync` whose test passed commits `RemovePeer(p)`. -/
  | removePeer {N : PeerNode} (p : String) (pingOk : Bool) (hp : p ∈ N.syncing)
      (h : srv.shouldRemove p pingOk = true) :
      PeerStep srv C N { N with store := N.store.deletePeer p, syncing := N.syncing.erase p }
  /-- A goroutine of `periodicFullPeerSync` that removes nothing: its test failed, or
  `RemovePeer(p)` did. -/
  | keep {N : PeerNode} (p : String) (hp : p ∈ N.syncing) :
      PeerStep srv C N { N with syncing := N.syncing.erase p }
  /-- A transaction of a method that does not write `peers` commits. -/
  | commit {N : PeerNode} {S' : Store} (op : Op) (hop : op.writesPeers = false)
      (h : op.run C N.store = .ok S') : PeerStep srv C N { N with store := S' }

/-- The states of the node from a new database. -/
def Server.PeerReachable (srv : Server) (C : Crypto) (N : PeerNode) : Prop :=
  Relation.ReflTransGen (srv.PeerStep toLower C) (PeerNode.init C) N

variable {toLower} {srv : Server} {C : Crypto} {N N' : PeerNode}

theorem Server.validateAndAddPeer_eq_some {peerExists : String → Except String Bool}
    {peer p : String} (h : srv.validateAndAddPeer toLower peerExists peer = .ok (some p)) :
    p = toLower peer ∧ p ≠ srv.extAddr := by
  unfold Server.validateAndAddPeer at h
  dsimp only at h
  split_ifs at h with he
  · cases h
  · split at h <;> cases h
    exact ⟨rfl, he⟩

/-- A step changes the store by a committed transaction or not at all. -/
theorem Server.PeerStep.store (hs : srv.PeerStep toLower C N N') :
    N'.store = N.store ∨ Step C N.store N'.store := by
  cases hs with
  | addPeer p _ => exact .inr (.commit (.addPeer p) rfl)
  | removePeer p _ _ _ => exact .inr (.commit (.removePeer p) rfl)
  | commit op _ h => exact .inr (.commit op h)
  | _ => exact .inl rfl

/-- The node's store is one a node reaches with the store's own operations. -/
theorem Server.PeerReachable.store (hN : srv.PeerReachable toLower C N) : Reachable C N.store := by
  induction hN with
  | refl => exact .refl
  | tail _ hs ih =>
      rcases hs.store with h | h
      · rwa [h]
      · exact ih.tail h

/-- What a step does to `peers`: it adds a peer a goroutine was started for, removes a peer that
is not well-known, or nothing. -/
theorem Server.PeerStep.peers_cases (hW : N.store.WellFormed) (hs : srv.PeerStep toLower C N N') :
    (∃ p ∈ N.adding, N'.store = (N.store.insertPeer p).1) ∨
      (∃ p, p ∉ srv.wellKnownPeers ∧ N'.store = N.store.deletePeer p) ∨
      N'.store.peers = N.store.peers := by
  cases hs with
  | addPeer p hp => exact .inl ⟨p, hp, rfl⟩
  | removePeer p pingOk _ h =>
      simp only [Server.shouldRemove, Bool.and_eq_true, Bool.not_eq_true', decide_eq_false_iff_not] at h
      exact .inr (.inl ⟨p, h.2, rfl⟩)
  | commit op hop h => exact .inr (.inr (Op.run_peers hW hop h))
  | _ => exact .inr (.inr rfl)

/-- What a step does to the goroutines that add peers: it starts one for a peer
`validateAndAddPeer` passed, or ends one, or neither. -/
theorem Server.PeerStep.adding_cases (hs : srv.PeerStep toLower C N N') :
    (∃ peer, N'.adding = N.adding ++ [toLower peer] ∧ toLower peer ≠ srv.extAddr) ∨
      ∀ p ∈ N'.adding, p ∈ N.adding := by
  cases hs with
  | validate peer p h =>
      obtain ⟨rfl, hne⟩ := Server.validateAndAddPeer_eq_some h
      exact .inl ⟨peer, rfl, hne⟩
  | addPeer p _ => exact .inr fun q hq => List.mem_of_mem_erase hq
  | abandon p _ => exact .inr fun q hq => List.mem_of_mem_erase hq
  | _ => exact .inr fun q hq => hq

theorem Store.mem_insertPeer {S : Store} {p q : String} :
    q ∈ (S.insertPeer p).1.peers ↔ q ∈ S.peers ∨ q = p := by
  unfold Store.insertPeer
  split_ifs with h
  · exact ⟨.inl, fun h' => h'.elim id (· ▸ h)⟩
  · simp

theorem Store.insertPeer_nodup {S : Store} (p : String) (h : S.peers.Nodup) :
    (S.insertPeer p).1.peers.Nodup := by
  unfold Store.insertPeer
  split_ifs with hp
  · exact h
  · exact h.append (List.nodup_singleton p) (List.disjoint_singleton.2 hp)

/-- What every reachable state keeps: every stored peer and every peer a goroutine will add is
its own lowercase form and not `extAddr`, and no peer is stored twice. -/
structure Server.PeersOk (toLower : String → String) (srv : Server) (N : PeerNode) : Prop where
  peers : ∀ p ∈ N.store.peers, toLower p = p ∧ p ≠ srv.extAddr
  adding : ∀ p ∈ N.adding, toLower p = p ∧ p ≠ srv.extAddr
  nodup : N.store.peers.Nodup

theorem Server.PeerStep.peersOk (hidem : ∀ s, toLower (toLower s) = toLower s)
    (hW : N.store.WellFormed) (hs : srv.PeerStep toLower C N N') (hI : srv.PeersOk toLower N) :
    srv.PeersOk toLower N' := by
  have hadd : ∀ p ∈ N'.adding, toLower p = p ∧ p ≠ srv.extAddr := by
    rcases hs.adding_cases with ⟨peer, he, hne⟩ | hsub
    · intro p hp
      rcases List.mem_append.1 (he ▸ hp) with hp | hp
      · exact hI.adding p hp
      · exact List.mem_singleton.1 hp ▸ ⟨hidem peer, hne⟩
    · exact fun p hp => hI.adding p (hsub p hp)
  rcases hs.peers_cases hW with ⟨q, hq, he⟩ | ⟨q, -, he⟩ | he
  · refine ⟨fun p hp => ?_, hadd, he ▸ Store.insertPeer_nodup q hI.nodup⟩
    rcases Store.mem_insertPeer.1 (he ▸ hp) with hp | rfl
    · exact hI.peers p hp
    · exact hI.adding p hq
  · exact ⟨fun p hp => hI.peers p (List.mem_of_mem_filter (he ▸ hp)), hadd, he ▸ hI.nodup.filter _⟩
  · exact ⟨fun p hp => hI.peers p (he ▸ hp), hadd, he ▸ hI.nodup⟩

theorem Server.PeerReachable.peersOk (hidem : ∀ s, toLower (toLower s) = toLower s)
    (hN : srv.PeerReachable toLower C N) : srv.PeersOk toLower N := by
  induction hN with
  | refl => exact ⟨fun p hp => absurd hp (List.not_mem_nil p), fun p hp => absurd hp (List.not_mem_nil p),
      List.nodup_nil⟩
  | tail hr hs ih => exact hs.peersOk hidem (Server.PeerReachable.store hr).inv.wf ih

/-- A well-known peer once stored stays stored, whatever the node does after. -/
theorem Server.PeerReachable.wellKnown_stays {w : String} (hw : w ∈ srv.wellKnownPeers)
    (hN : srv.PeerReachable toLower C N) (hN' : Relation.ReflTransGen (srv.PeerStep toLower C) N N')
    (hmem : w ∈ N.store.peers) : w ∈ N'.store.peers := by
  induction hN' with
  | refl => exact hmem
  | tail hr hs ih =>
      rcases hs.peers_cases (Server.PeerReachable.store (hN.trans hr)).inv.wf with
        ⟨q, -, he⟩ | ⟨q, hq, he⟩ | he
      · rw [he, Store.mem_insertPeer]; exact .inl ih
      · rw [he]
        exact List.mem_filter.2 ⟨ih, decide_eq_true fun h => hq (h ▸ hw)⟩
      · rw [he]; exact ih

/-- Lowercasing an ASCII letter twice lowercases it once. -/
theorem Char.toLower_idem (c : Char) : c.toLower.toLower = c.toLower := by
  unfold Char.toLower
  dsimp only
  split_ifs with h h'
  · have hv : (Char.ofNat (c.toNat + 32)).toNat = c.toNat + 32 := by
      rw [Char.ofNat, dif_pos (by unfold Nat.isValidChar; omega)]
      rfl
    omega
  all_goals rfl

/-- `String.toLower`, which lowercases the ASCII letters, is idempotent, as `peers_lowercase`
asks of `strings.ToLower`. -/
theorem String.toLower_idem (s : String) : s.toLower.toLower = s.toLower := by
  simp only [String.toLower, String.map_eq, List.map_map]
  congr 1
  exact List.map_congr_left fun c _ => Char.toLower_idem c

/-- The node of `Node:8080` after `validateAndAddPeer("PEER:8080")` and its `AddPeer`. -/
def peerNode : PeerNode := ⟨((migrate default).insertPeer "peer:8080").1, [], []⟩

/-- `PEER:8080` is validated as `peer:8080`, which the goroutine then stores. -/
theorem peerNode_reachable :
    (newServer String.toLower "Node:8080" ["Peer:8080"]).PeerReachable String.toLower default
      peerNode := by
  have hv : (newServer String.toLower "Node:8080" ["Peer:8080"]).validateAndAddPeer String.toLower
      (fun q => .ok ((PeerNode.init default).store.peerExists q)) "PEER:8080" =
        .ok (some "peer:8080") := by
    have h₁ : "PEER:8080".toLower = "peer:8080" := by
      simp only [String.toLower, String.map_eq]
      decide
    have h₂ : "Node:8080".toLower = "node:8080" := by
      simp only [String.toLower, String.map_eq]
      decide
    simp only [Server.validateAndAddPeer, newServer, h₁, h₂]
    rw [if_neg (by decide)]
    rfl
  exact .tail (.single (.validate _ _ hv)) (.addPeer _ (List.mem_singleton_self _))

/-- Peer discovery over every run from a new database, with `strings.ToLower` idempotent. Every
stored peer is its own lowercase form and not the lowercased `extAddr`, and no row is stored
twice; so every address whose lowercase form is stored is stored as that form only, and
addresses that differ only in case never make two rows. A step removes a stored peer only when
it is not among the lowercased well-known peers, and a well-known peer once stored stays
stored. -/
theorem peers_lowercase (hidem : ∀ s, toLower (toLower s) = toLower s) (extAddr : String)
    (peers : List String) (hN : (newServer toLower extAddr peers).PeerReachable toLower C N) :
    (∀ p ∈ N.store.peers, toLower p = p ∧ p ≠ toLower extAddr) ∧ N.store.peers.Nodup ∧
    (∀ s, ∀ p ∈ N.store.peers, toLower p = toLower s → p = toLower s) ∧
    (∀ N', (newServer toLower extAddr peers).PeerStep toLower C N N' →
      ∀ p ∈ N.store.peers, p ∉ N'.store.peers → p ∉ createWellKnownPeers toLower peers) ∧
    ∀ w ∈ peers, toLower w ∈ N.store.peers → ∀ N',
      Relation.ReflTransGen ((newServer toLower extAddr peers).PeerStep toLower C) N N' →
      toLower w ∈ N'.store.peers := by
  have hI := hN.peersOk hidem
  refine ⟨hI.peers, hI.nodup, fun s p hp he => ?_, fun N' hs p hp hp' hw => ?_,
    fun w hw hmem N' hN' => hN.wellKnown_stays (List.mem_map_of_mem _ hw) hN' hmem⟩
  · rw [← he, (hI.peers p hp).1]
  · exact hp' (hN.wellKnown_stays hw (.single hs) hp)

/-- A node at `Node:8080` told of the peer `PEER:8080` stores it as `peer:8080`, the well-known
peer `Peer:8080` lowercased, which then stays stored. -/
theorem peers_lowercase_toLower :
    (∀ s : String, s.toLower.toLower = s.toLower) ∧
    (newServer String.toLower "Node:8080" ["Peer:8080"]).PeerReachable String.toLower default
      peerNode ∧
    ((∀ p ∈ peerNode.store.peers, p.toLower = p ∧ p ≠ "Node:8080".toLower) ∧
      peerNode.store.peers.Nodup ∧
      (∀ s : String, ∀ p ∈ peerNode.store.peers, p.toLower = s.toLower → p = s.toLower) ∧
      (∀ N', (newServer String.toLower "Node:8080" ["Peer:8080"]).PeerStep String.toLower default
          peerNode N' →
        ∀ p ∈ peerNode.store.peers, p ∉ N'.store.peers →
          p ∉ createWellKnownPeers String.toLower ["Peer:8080"]) ∧
      ∀ w ∈ ["Peer:8080"], w.toLower ∈ peerNode.store.peers → ∀ N',
        Relation.ReflTransGen
          ((newServer String.toLower "Node:8080" ["Peer:8080"]).PeerStep String.toLower default)
          peerNode N' → w.toLower ∈ N'.store.peers) :=
  ⟨String.toLower_idem, peerNode_reachable,
    peers_lowercase String.toLower_idem "Node:8080" ["Peer:8080"] peerNode_reachable⟩

end Discovery

/-! ## `DB.AddPeer` -/

section AddPeer

open Database

variable {ε : Type}

/-- The closure of `DB.AddPeer(peer)`: `INSERT OR IGNORE` the peer, and set the captured
`created` when the statement inserted a row. Nothing clears `created`. -/
def addPeerTx (peer : String) (S : Store) (created : Bool) : Except ε Store × Bool :=
  let r := S.insertPeer peer
  (.ok r.1, if 0 < r.2 then true else created)

/-- What `DB.AddPeer` returns once its `TransactWithRetry` has: `created` on nil, the error
otherwise. -/
def addPeerResult : Call ε Bool → Option (Except (TxErr ε) Bool)
  | .done (.ok ()) created => some (.ok created)
  | .done (.error e) _ => some (.error e)
  | .loop _ _ _ => none

/-- `DB.AddPeer(peer)` run alone on `S`, attempt `i` answered by `db i`: what it returns, and
the store after. -/
def DB.addPeer (isDeadlock : ε → Bool) (tries : Int) (db : Nat → Backend ε) (peer : String)
    (S : Store) : Option (Except (TxErr ε) Bool) × Store :=
  let r := transactWithRetry isDeadlock (addPeerTx peer) tries db S false
  (addPeerResult r.1, r.2.1)

variable {isDeadlock : ε → Bool} {tries : Int} {peer : String} {S : Store}

/-- The closure inserts the peer and sets `created` when the store lacked it. -/
theorem addPeerTx_eq (c : Bool) :
    (addPeerTx peer S c : Except ε Store × Bool) =
      (.ok (S.insertPeer peer).1, c || !decide (peer ∈ S.peers)) := by
  by_cases hp : peer ∈ S.peers <;> simp [addPeerTx, Store.insertPeer, hp]

/-- An attempt of `DB.AddPeer` whose `COMMIT` does not fail, from `created = false`: it fails
before the closure ran, or it commits `INSERT OR IGNORE` and `created` says whether that
inserted the row. -/
theorem transact_addPeer {b : Backend ε} (hb : b.commit = none) :
    (∃ e, transact (addPeerTx peer) b S false = (some e, S, false)) ∨
      transact (addPeerTx peer) b S false = (none, (S.insertPeer peer).1, !decide (peer ∈ S.peers)) := by
  obtain ⟨_ | e, _ | e', c⟩ := b
  · cases hb
    simp [transact, addPeerTx_eq]
  · exact .inl ⟨e', rfl⟩
  · exact .inl ⟨e, rfl⟩
  · exact .inl ⟨e, rfl⟩

/-- An attempt of `DB.AddPeer` from a `created` set only when the store lacks the peer, whatever
the database answers: it fails and leaves the store, `created` still set only when the store lacks
the peer; or it commits, and `created` says whether the store lacked the peer. -/
theorem transact_addPeer_alone (b : Backend ε) {c : Bool} (hc : c = true → peer ∉ S.peers) :
    (∃ e c', transact (addPeerTx peer) b S c = (some e, S, c') ∧ (c' = true → peer ∉ S.peers)) ∨
      transact (addPeerTx peer) b S c = (none, (S.insertPeer peer).1, !decide (peer ∈ S.peers)) := by
  have hc' : (c || !decide (peer ∈ S.peers)) = !decide (peer ∈ S.peers) := by
    cases c
    · rfl
    · simp [hc rfl]
  obtain ⟨_ | e, _ | e', _ | e''⟩ := b
  · simp [transact, addPeerTx_eq, hc']
  · exact .inl ⟨e'', !decide (peer ∈ S.peers), by simp only [transact, addPeerTx_eq, hc'], by simp⟩
  all_goals exact .inl ⟨_, c, rfl, hc⟩

/-- What a call of `DB.AddPeer(peer)` running alone from `S₀` keeps, with the store it sees: in
the loop the store is `S₀` and `created` is set only if `S₀` lacks the peer; returned with nil,
`created` says whether `S₀` lacked it and the store holds it; returned with an error, the store is
`S₀`. -/
def AloneOk (peer : String) (S₀ : Store) : Call ε Bool × Store → Prop
  | (.loop _ _ c, S) => S = S₀ ∧ (c = true → peer ∉ S₀.peers)
  | (.done (.ok ()) c, S) => c = !decide (peer ∈ S₀.peers) ∧ S = (S₀.insertPeer peer).1
  | (.done (.error _) _, S) => S = S₀

/-- A pass of a call running alone keeps `AloneOk`, whatever the database answers: a rolled-back
attempt leaves the store as it was, so a `created` it set stays true. -/
theorem AloneOk.step {S₀ S' : Store} {k : Call ε Bool} (b : Backend ε)
    (h : AloneOk peer S₀ (k, S')) :
    AloneOk peer S₀ ((k.step isDeadlock (addPeerTx peer) tries b S').1,
      (k.step isDeadlock (addPeerTx peer) tries b S').2.1) := by
  cases k with
  | done r c => exact h
  | loop i err c =>
      obtain ⟨rfl, hc⟩ := h
      simp only [Call.step]
      by_cases hi : (i : Int) < tries
      · rcases transact_addPeer_alone b hc with ⟨e, c', he, hc'⟩ | he <;> simp only [if_pos hi, he]
        · cases hd : isDeadlock e <;> simp only [Bool.false_eq_true, if_false, if_true]
          · rfl
          · exact ⟨rfl, hc'⟩
        · exact ⟨rfl, rfl⟩
      · simp only [if_neg hi]
        rfl

/-- `DB.AddPeer(peer)` running alone returns under every budget and every pattern of failures,
`COMMIT` failures included: with nil and `created` true exactly when the store lacked the peer,
the store then holding it; or with an error, the store unchanged. -/
theorem DB.addPeer_alone (db : Nat → Backend ε) :
    ∃ r, (DB.addPeer isDeadlock tries db peer S).1 = some r ∧
      (∀ created, r = .ok created → created = !decide (peer ∈ S.peers) ∧
        (DB.addPeer isDeadlock tries db peer S).2 = (S.insertPeer peer).1) ∧
      ∀ e, r = .error e → (DB.addPeer isDeadlock tries db peer S).2 = S := by
  obtain ⟨r, c, hdone⟩ := transactWithRetry_returns isDeadlock (addPeerTx peer) db tries S false
  have hok : AloneOk peer S ((transactWithRetry isDeadlock (addPeerTx peer) tries db S false).1,
      (transactWithRetry isDeadlock (addPeerTx peer) tries db S false).2.1) := by
    have hstart : AloneOk peer S ((Call.start tries false : Call ε Bool), S) := by
      unfold Call.start
      split_ifs
      · rfl
      · exact ⟨rfl, Bool.noConfusion⟩
    exact run_inv isDeadlock (addPeerTx peer) db tries (AloneOk peer S) (fun _ _ b h => h.step b)
      _ _ _ hstart
  rw [hdone] at hok
  rcases r with e | ⟨⟩
  · exact ⟨.error e, by simp [DB.addPeer, hdone, addPeerResult], fun _ h => Except.noConfusion h,
      fun _ _ => hok⟩
  · exact ⟨.ok c, by simp [DB.addPeer, hdone, addPeerResult],
      fun _ h => (Except.ok.inj h) ▸ hok, fun _ h => Except.noConfusion h⟩

/-- One pass of a call of `DB.AddPeer(peer)` whose `COMMIT` does not fail: a call in the loop
never holds `created = true`, and the pass sets `created` exactly when it inserted the row. -/
theorem step_addPeer {b : Backend ε} (hb : b.commit = none) {c : Call ε Bool}
    (hc : ∀ i err, c ≠ .loop i err true) :
    (∀ i err, (c.step isDeadlock (addPeerTx peer) tries b S).1 ≠ .loop i err true) ∧
    (if (c.step isDeadlock (addPeerTx peer) tries b S).1.captured then 1 else 0) +
        (if peer ∈ S.peers then 1 else 0) =
      (if c.captured then 1 else 0) +
        (if peer ∈ (c.step isDeadlock (addPeerTx peer) tries b S).2.1.peers then 1 else 0) := by
  cases c with
  | done r x => exact ⟨fun _ _ h => Call.noConfusion h, rfl⟩
  | loop i err x =>
      obtain rfl : x = false := by
        cases x
        · rfl
        · exact absurd rfl (hc i err)
      simp only [Call.step]
      by_cases hi : (i : Int) < tries
      · rcases @transact_addPeer _ peer S _ hb with ⟨e, he⟩ | he <;>
          simp only [if_pos hi, he]
        · cases hd : isDeadlock e <;> simp only [hd, Bool.false_eq_true, if_false, if_true] <;>
            exact ⟨fun _ _ h => (by cases h), rfl⟩
        · refine ⟨fun _ _ h => Call.noConfusion h, ?_⟩
          by_cases hp : peer ∈ S.peers <;> simp [Call.captured, Store.mem_insertPeer, hp]
      · simp only [if_neg hi]
        exact ⟨fun _ _ h => Call.noConfusion h, rfl⟩

/-- A deadlock test on errors given by their text: SQLite's `SQLITE_BUSY`. -/
def isBusy (e : String) : Bool := decide (e = "database is locked")

/-- A database on which the statements of the first call's first attempt fail with
`SQLITE_BUSY`, and nothing else fails. -/
def busyOnce (k i : Nat) : Backend String :=
  if k = 0 ∧ i = 0 then ⟨none, some "database is locked", none⟩ else ⟨none, none, none⟩

/-- Calls of `DB.AddPeer(peer)` interleaved in any order on a store `S`, none of whose
`COMMIT`s fails: no call in the loop holds `created = true`, and the calls holding it and the
row's presence in `S` add up to its presence now. So at most one call returns
`created = true`: none when `S` had the row, and otherwise the one that inserted it. -/
theorem interleave_addPeer {db : Nat → Nat → Backend ε} (hdb : ∀ k i, (db k i).commit = none)
    (order : List Nat) (n : Nat) :
    (∀ i err, .loop i err true ∉
      (interleave isDeadlock (addPeerTx peer) tries db order (List.replicate n (Call.start tries false)) S).1) ∧
    (interleave isDeadlock (addPeerTx peer) tries db order (List.replicate n (Call.start tries false)) S).1.countP
        Call.captured + (if peer ∈ S.peers then 1 else 0) =
      if peer ∈ (interleave isDeadlock (addPeerTx peer) tries db order
        (List.replicate n (Call.start tries false)) S).2.peers then 1 else 0 := by
  refine interleave_inv (fun calls S' => (∀ i err, .loop i err true ∉ calls) ∧
    calls.countP Call.captured + (if peer ∈ S.peers then 1 else 0) =
      if peer ∈ S'.peers then 1 else 0) ?_ order _ S ⟨fun i err h => ?_, ?_⟩
  · intro calls S' k call hk ⟨hloop, hcount⟩
    have hlt : k < calls.length := (List.getElem?_eq_some_iff.1 hk).1
    have hget : calls[k] = call := (List.getElem?_eq_some_iff.1 hk).2
    obtain ⟨hloop', hcount'⟩ := @step_addPeer _ isDeadlock tries peer S' _ (hdb k call.index) call
      fun i err h => hloop i err (h ▸ List.getElem?_mem hk)
    refine ⟨fun i err h => ?_, ?_⟩
    · rcases List.mem_or_eq_of_mem_set h with h | h
      · exact hloop i err h
      · exact hloop' i err h.symm
    · have hle := List.boole_getElem_le_countP Call.captured calls k hlt
      rw [List.countP_set _ _ _ _ hlt, hget] at *
      omega
  · exact absurd ((congrArg Call.captured (List.mem_replicate.1 h).2).trans
      (Call.captured_start tries false)) Bool.noConfusion
  · rw [List.countP_eq_zero.2 fun c hc => by simp [(List.mem_replicate.1 hc).2]]
    simp

/-- Two calls for `peer:8080` on a new database, the first retrying after `SQLITE_BUSY`. -/
theorem interleave_addPeer_busyOnce : (∀ k i, (busyOnce k i).commit = none) ∧
    (∀ i err, .loop i err true ∉ (interleave isBusy (addPeerTx "peer:8080") 3 busyOnce [0, 1, 0]
      (List.replicate 2 (Call.start 3 false)) (migrate default)).1) ∧
    (interleave isBusy (addPeerTx "peer:8080") 3 busyOnce [0, 1, 0]
        (List.replicate 2 (Call.start 3 false)) (migrate default)).1.countP Call.captured +
        (if "peer:8080" ∈ (migrate default).peers then 1 else 0) =
      if "peer:8080" ∈ (interleave isBusy (addPeerTx "peer:8080") 3 busyOnce [0, 1, 0]
        (List.replicate 2 (Call.start 3 false)) (migrate default)).2.peers then 1 else 0 :=
  have hdb : ∀ k i, (busyOnce k i).commit = none := fun k i => by
    unfold busyOnce
    split <;> rfl
  ⟨hdb, interleave_addPeer hdb [0, 1, 0] 2⟩

/-- Two calls of `DB.AddPeer(peer)` on a store without the peer, with a budget of two tries
or more: the first inserts the row and its `COMMIT` fails with a deadlock-class error, so it
rolls back and keeps `created = true`; the second inserts the row and commits; the first
retries, inserts nothing and commits. Both return `created = true`, and one row was added. -/
theorem addPeer_created_twice (e : ε) (hd : isDeadlock e = true) (ht : 2 ≤ tries)
    (hS : peer ∉ S.peers) :
    (interleave isDeadlock (addPeerTx peer) tries
        (fun k i => if k = 0 ∧ i = 0 then ⟨none, none, some e⟩ else ⟨none, none, none⟩) [0, 1, 0]
        [Call.start tries false, Call.start tries false] S).1.map addPeerResult =
      [some (.ok true), some (.ok true)] ∧
    (interleave isDeadlock (addPeerTx peer) tries
        (fun k i => if k = 0 ∧ i = 0 then ⟨none, none, some e⟩ else ⟨none, none, none⟩) [0, 1, 0]
        [Call.start tries false, Call.start tries false] S).2.peers = S.peers ++ [peer] := by
  have h0 : (0 : Int) < tries := by omega
  have h1 : (1 : Int) < tries := by omega
  have hS' : peer ∈ (S.insertPeer peer).1.peers := Store.mem_insertPeer.2 (.inr rfl)
  have hstart : Call.start tries false = (.loop 0 none false : Call ε Bool) := if_neg (by omega)
  simp [hstart, interleave, Call.index, Call.step, transact, addPeerTx, h0, h1, hd,
    Store.insertPeer, hS, hS', addPeerResult]

theorem addPeer_created_twice_three :
    isBusy "database is locked" = true ∧ (2 : Int) ≤ 3 ∧ "peer:8080" ∉ (migrate default).peers ∧
    ((interleave isBusy (addPeerTx "peer:8080") 3
        (fun k i => if k = 0 ∧ i = 0 then ⟨none, none, some "database is locked"⟩
          else ⟨none, none, none⟩) [0, 1, 0]
        [Call.start 3 false, Call.start 3 false] (migrate default)).1.map addPeerResult =
      [some (.ok true), some (.ok true)] ∧
    (interleave isBusy (addPeerTx "peer:8080") 3
        (fun k i => if k = 0 ∧ i = 0 then ⟨none, none, some "database is locked"⟩
          else ⟨none, none, none⟩) [0, 1, 0]
        [Call.start 3 false, Call.start 3 false] (migrate default)).2.peers =
      (migrate default).peers ++ ["peer:8080"]) :=
  ⟨rfl, by decide, by simp [migrate],
    addPeer_created_twice "database is locked" rfl (by decide) (by simp [migrate])⟩

end AddPeer

end Cryptopuff
