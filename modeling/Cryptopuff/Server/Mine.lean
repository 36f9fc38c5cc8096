import Cryptopuff.Mining
import Cryptopuff.HeightWrap

/-!
# Preempting the miners (server.go)

`Serve` starts three `mine()` loops next to the request handlers. A loop reads
`bestBlockVersion` with `atomic.LoadUint64`, then `BestBlock()`, then searches for a nonce,
loading `bestBlockVersion` again before each candidate and restarting when it changed. The
handlers that commit blocks or transactions (`addBlock`, `fetchBlocks`, `addTx`, `fetchTxs`,
`broadcastTx`) and a miner that found a block increment `bestBlockVersion` after their commit.

`MinerNode` holds the store, the counter and the loops, and `MinerNode.Step` is one atomic
step: a commit, an increment, or one of a loop's reads. Two history variables, which the program
does not have, say what the result is about: `increments`, the number of increments so far, and
`announced`, the number of rows of `blocks` committed before the last one (rows are only ever
appended). In every run, a loop whose check passes with fewer than `2^64` increments since its
snapshot searches on a tip at least as high as every announced row, and a loop checking after
an increment restarts (`miner_tip_current`). The counter is a `uint64`: after `2^64`
increments the check passes again, on a stale tip (`stale_tip_after_wrap`).
-/

namespace Cryptopuff

/-- Where a `mine()` loop is: at the top of `newBestBlock`; after `atomic.LoadUint64` took the
snapshot `version`; or searching for a nonce on the tip `block` that `BestBlock()` returned
after the snapshot. `seen`, a history variable, is the number of increments at the snapshot. -/
inductive Miner where
  | top
  | loaded (version : UInt64) (seen : Nat)
  | searching (version : UInt64) (seen : Nat) (block : Block)

/-- The store, `bestBlockVersion` and the `mine()` loops. `increments` and `announced` are
history variables: the increments so far, and the number of rows of `blocks` committed before
the last one. -/
structure MinerNode where
  store : Store
  bestBlockVersion : UInt64
  miners : List Miner
  increments : Nat
  announced : Nat

/-- A new database and `n` loops at their top; `Serve` starts three. -/
def MinerNode.init (C : Crypto) (n : Nat) : MinerNode :=
  ⟨migrate C, 0, List.replicate n .top, 0, 0⟩

/-- `atomic.AddUint64(&s.bestBlockVersion, 1)`. -/
def MinerNode.increment (N : MinerNode) : MinerNode :=
  { N with
    bestBlockVersion := N.bestBlockVersion + 1
    increments := N.increments + 1
    announced := N.store.blocks.length }

/-- One atomic step of the node as far as the miners are concerned. -/
inductive MinerNode.Step (C : Crypto) : MinerNode → MinerNode → Prop
  /-- A transaction commits: a handler's, a loop's `PendingTxs` or `AddBlock`, or any other. -/
  | commit {N : MinerNode} {S' : Store} (op : Op) (h : op.run C N.store = .ok S') :
      Step C N { N with store := S' }
  /-- A handler or a loop that committed increments `bestBlockVersion`; so does `fetchTxs`
  when the peer sent nothing to add. -/
  | increment {N : MinerNode} : Step C N N.increment
  /-- Loop `k` takes its snapshot, `version := atomic.LoadUint64(&s.bestBlockVersion)`. -/
  | load {N : MinerNode} (k : Nat) (hk : N.miners[k]? = some .top) :
      Step C N { N with miners := N.miners.set k (.loaded N.bestBlockVersion N.increments) }
  /-- Loop `k` reads its tip, `block, err := s.db.BestBlock()`, without an error. -/
  | bestBlock {N : MinerNode} (k : Nat) {v : UInt64} {seen : Nat} {T : Block}
      (hk : N.miners[k]? = some (.loaded v seen)) (hT : DB.bestBlock C N.store = .ok T) :
      Step C N { N with miners := N.miners.set k (.searching v seen T) }
  /-- Loop `k` checks `version != atomic.LoadUint64(&s.bestBlockVersion)` and restarts. -/
  | restart {N : MinerNode} (k : Nat) {v : UInt64} {seen : Nat} {T : Block}
      (hk : N.miners[k]? = some (.searching v seen T)) (hv : v ≠ N.bestBlockVersion) :
      Step C N { N with miners := N.miners.set k .top }
  /-- Loop `k` passes its check and its candidate's hash is valid: it leaves the search; its
  `AddBlock` and its increment are a commit and an increment. -/
  | found {N : MinerNode} (k : Nat) {v : UInt64} {seen : Nat} {T : Block}
      (hk : N.miners[k]? = some (.searching v seen T)) (hv : v = N.bestBlockVersion) :
      Step C N { N with miners := N.miners.set k .top }

/-- The states of a node with `n` loops from a new database. -/
def MinerNode.Reachable (C : Crypto) (n : Nat) (N : MinerNode) : Prop :=
  Relation.ReflTransGen (MinerNode.Step C) (MinerNode.init C n) N

namespace MinerNode

variable {C : Crypto} {n : Nat} {N N' : MinerNode}

/-- What a loop's state says of the node: its snapshot is the counter after `seen` increments,
and while no increment has followed the snapshot, its tip is at least as high as every row
committed before the last increment. -/
def MinerOk (N : MinerNode) : Miner → Prop
  | .top => True
  | .loaded v seen => v.toNat = seen % 2 ^ 64 ∧ seen ≤ N.increments
  | .searching v seen T => v.toNat = seen % 2 ^ 64 ∧ seen ≤ N.increments ∧
      (N.increments = seen → ∀ r ∈ N.store.blocks.take N.announced, r.height ≤ T.height.val)

/-- What every reachable state keeps: the store is reachable, the counter is the number of
increments modulo `2^64`, `announced` counts stored rows, and every loop's state holds. -/
structure Inv (C : Crypto) (N : MinerNode) : Prop where
  reachable : Cryptopuff.Reachable C N.store
  version : N.bestBlockVersion.toNat = N.increments % 2 ^ 64
  announced_le : N.announced ≤ N.store.blocks.length
  miners : ∀ m ∈ N.miners, MinerOk N m

theorem toNat_add_one (c : UInt64) : (c + 1).toNat = (c.toNat + 1) % 2 ^ 64 := by
  simp [UInt64.add_def, UInt64.toNat, BitVec.toNat_add]

/-- Setting one loop keeps the loops' states when the new state holds. -/
theorem minerOk_set {miners : List Miner} {k : Nat} {m : Miner} (h : ∀ x ∈ miners, MinerOk N x)
    (hm : MinerOk N m) : ∀ x ∈ miners.set k m, MinerOk N x := fun x hx =>
  (List.mem_or_eq_of_mem_set hx).elim (h x) (· ▸ hm)

@[simp] theorem increment_store : N.increment.store = N.store := rfl
@[simp] theorem increment_miners : N.increment.miners = N.miners := rfl
@[simp] theorem increment_increments : N.increment.increments = N.increments + 1 := rfl
@[simp] theorem increment_announced : N.increment.announced = N.store.blocks.length := rfl

theorem Inv.increment (hI : Inv C N) : Inv C N.increment where
  reachable := hI.reachable
  version := by rw [MinerNode.increment, toNat_add_one, hI.version, Nat.mod_add_mod]
  announced_le := le_rfl
  miners m hm := by
    cases m with
    | top => trivial
    | loaded v seen =>
        obtain ⟨hv, hs⟩ := hI.miners _ hm
        exact ⟨hv, by simp only [increment_increments]; omega⟩
    | searching v seen T =>
        obtain ⟨hv, hs, -⟩ := hI.miners _ hm
        exact ⟨hv, by simp only [increment_increments]; omega,
          fun h => absurd h (by simp only [increment_increments]; omega)⟩

theorem Inv.commit {op : Op} {S' : Store} (hI : Inv C N) (h : op.run C N.store = .ok S') :
    Inv C { N with store := S' } := by
  have hs : Cryptopuff.Step C N.store S' := .commit op h
  have hpre := (hs.inv hI.reachable.inv).2.blocks
  have hle := hpre.length_le
  have htake : S'.blocks.take N.announced = N.store.blocks.take N.announced := by
    obtain ⟨t, ht⟩ := hpre
    rw [← ht, List.take_append_of_le_length hI.announced_le]
  refine ⟨hI.reachable.tail hs, hI.version, hI.announced_le.trans hle, fun m hm => ?_⟩
  have := hI.miners m hm
  cases m with
  | top => trivial
  | loaded v seen => exact this
  | searching v seen T => exact ⟨this.1, this.2.1, fun he => by
      simp only [htake]; exact this.2.2 he⟩

/-- Every step keeps the invariant. -/
theorem Step.inv (hs : Step C N N') (hI : Inv C N) : Inv C N' := by
  cases hs with
  | commit op h => exact hI.commit h
  | increment => exact hI.increment
  | load k hk =>
      exact { hI with miners := minerOk_set hI.miners ⟨hI.version, le_rfl⟩ }
  | bestBlock k hk hT =>
      have hm := hI.miners _ (List.getElem?_mem hk)
      exact { hI with miners := minerOk_set hI.miners ⟨hm.1, hm.2, fun _ r hr =>
        Store.Inv.bestBlock_max hI.reachable.inv hT r (List.mem_of_mem_take hr)⟩ }
  | restart k hk hv => exact { hI with miners := minerOk_set hI.miners trivial }
  | found k hk hv => exact { hI with miners := minerOk_set hI.miners trivial }

theorem Reachable.inv (hN : Reachable C n N) : Inv C N := by
  induction hN with
  | refl =>
      refine ⟨.refl, rfl, Nat.zero_le _, fun m hm => ?_⟩
      rw [(List.mem_replicate.1 hm).2]
      trivial
  | tail _ hs ih => exact hs.inv ih

/-- From a reachable state, `m + 1` increments and nothing else. -/
theorem Reachable.exists_increments (hN : Reachable C n N) : ∀ m : Nat, ∃ N',
    Reachable C n N' ∧ N'.store = N.store ∧ N'.miners = N.miners ∧
      N'.increments = N.increments + (m + 1) ∧ N'.announced = N.store.blocks.length
  | 0 => ⟨N.increment, hN.tail .increment, rfl, rfl, rfl, rfl⟩
  | m + 1 => by
      obtain ⟨N', hN', hs, hm, hi, -⟩ := hN.exists_increments m
      exact ⟨N'.increment, hN'.tail .increment, hs, hm, by simp only [increment_increments, hi]; omega,
        by rw [increment_announced, hs]⟩

end MinerNode

namespace LongChain

/-- The node after two loops took their snapshots around the commit of `rewardBlock 1`: loop 0
searches on the genesis block with snapshot `0`, loop 1 on `rewardBlock 1` with snapshot `1`. -/
def minerRun : MinerNode :=
  ⟨rewardStore, 1, [.searching 0 0 (genesisBlock C₀), .searching 1 1 (rewardBlock 1)], 1, 2⟩

/-- Loop 0 loads and reads the genesis block; `AddBlock(rewardBlock 1)` commits and
increments; loop 1 loads and reads `rewardBlock 1`. -/
theorem minerRun_reachable : MinerNode.Reachable C₀ 2 minerRun := by
  have h₁ : MinerNode.Reachable C₀ 2 ⟨migrate C₀, 0, [.searching 0 0 (genesisBlock C₀), .top], 0, 0⟩ :=
    .tail (.single (.load 0 rfl)) (.bestBlock 0 rfl (migrate_bestBlock genesis_hash_ne))
  have hrun := rewardStore_spec.1
  have hlen : rewardStore.blocks.length = 2 := by rw [rewardStore_spec.2.1]; rfl
  have hT := rewardStore_bestBlock
  -- the store stays abstract, so that no unification step unfolds `rewardStore`
  unfold minerRun
  generalize rewardStore = S at hrun hlen hT ⊢
  have he : MinerNode.increment ⟨S, 0, [.searching 0 0 (genesisBlock C₀), .top], 0, 0⟩ =
      ⟨S, 1, [.searching 0 0 (genesisBlock C₀), .top], 1, 2⟩ := by
    rw [MinerNode.increment, hlen]
    rfl
  have h₂ : MinerNode.Reachable C₀ 2 ⟨S, 1, [.searching 0 0 (genesisBlock C₀), .top], 1, 2⟩ :=
    he ▸ (h₁.tail (.commit (.addBlock (rewardBlock 1)) hrun)).tail .increment
  exact (h₂.tail (.load 1 rfl)).tail (.bestBlock 1 rfl hT)

end LongChain

/-- The miners against every interleaving of the handlers. Take a reachable state and a loop
searching with snapshot `v`, taken after `seen` increments, on the tip `T` that `BestBlock()`
returned after it. When its check passes and fewer than `2^64` increments happened since the
snapshot, every row committed before the last increment is at most as high as `T`. When an
increment happened since the snapshot, fewer than `2^64` ago, its check fails and it restarts. -/
theorem miner_tip_current {C : Crypto} {n : Nat} {N : MinerNode} (hN : MinerNode.Reachable C n N)
    {k : Nat} {v : UInt64} {seen : Nat} {T : Block} (hk : N.miners[k]? = some (.searching v seen T)) :
    (v = N.bestBlockVersion → N.increments < seen + 2 ^ 64 →
      ∀ r ∈ N.store.blocks.take N.announced, r.height ≤ T.height.val) ∧
    (seen < N.increments → N.increments < seen + 2 ^ 64 → v ≠ N.bestBlockVersion) := by
  have hI := hN.inv
  obtain ⟨hv, hseen, htip⟩ := hI.miners _ (List.getElem?_mem hk)
  have hver := hI.version
  refine ⟨fun he hlt => htip ?_, fun hlt hlt' he => ?_⟩
  · rw [← he, hv] at hver
    omega
  · rw [← he, hv] at hver
    omega

open LongChain in
/-- Two loops on a new database: loop 0 reads the genesis block, a handler commits
`rewardBlock 1` and increments, and loop 1 then reads `rewardBlock 1`. Loop 0's check fails, and
loop 1's passes on a tip as high as both announced rows. -/
theorem miner_tip_current_rewardStore : MinerNode.Reachable C₀ 2 minerRun ∧
    minerRun.miners[0]? = some (.searching 0 0 (genesisBlock C₀)) ∧
    minerRun.miners[1]? = some (.searching 1 1 (rewardBlock 1)) ∧
    (0 : UInt64) ≠ minerRun.bestBlockVersion ∧
    ∀ r ∈ minerRun.store.blocks.take minerRun.announced, r.height ≤ (rewardBlock 1).height.val :=
  ⟨minerRun_reachable, rfl, rfl,
    (miner_tip_current minerRun_reachable (k := 0) rfl).2 (by decide) (by decide),
    (miner_tip_current minerRun_reachable (k := 1) rfl).1 rfl (by decide)⟩

namespace HeightWrap

/-- One loop against `fetchTxs` calls that find nothing to add: the loop takes its snapshot and
reads the genesis block as its tip, a handler commits the block of height 1 and increments, and
`2^64 - 1` increments follow. The counter is back at the snapshot, so the check passes, on a tip
lower than a row committed before the last increment. -/
theorem stale_tip_after_wrap : ∃ N, MinerNode.Reachable C₄ 1 N ∧ ∃ v seen T,
    N.miners[0]? = some (.searching v seen T) ∧ v = N.bestBlockVersion ∧
    ∃ r ∈ N.store.blocks.take N.announced, T.height.val < r.height := by
  have hG : (genesisBlock C₄).hash ≠ emptyHash :=
    (wrapBlock_hash 0 (by norm_num)).trans_ne (hashAt_ne 0)
  have hN : MinerNode.Reachable C₄ 1 ⟨migrate C₄, 0, [.searching 0 0 (wrapBlock 0)], 0, 0⟩ :=
    .tail (.single (.load 0 rfl)) (.bestBlock 0 rfl (migrate_bestBlock hG))
  have hnot : (wrapBlock 1).hash ∉ (migrate C₄).hashes := by
    simp only [Store.hashes, migrate, hG, if_false, List.map_cons, List.map_nil,
      List.mem_singleton, wrapBlock_hash 1 (by norm_num)]
    exact fun h => absurd (hashAt_inj (by norm_num) (by norm_num)
      (h.trans (wrapBlock_hash 0 (by norm_num)))) (by norm_num)
  have hsc : (migrate C₄).StoredChain C₄ ([] ++ [wrapBlock 0]) := Store.migrate_storedChain hG
  obtain ⟨S', hadd, -, hbl, -, -⟩ := Reachable.addBlock_step .refl hsc (wrapBlock_hashed 1) hnot
    ((wrapBlock_hash 1 (by norm_num)).trans_ne (hashAt_ne 1)) (wrapBlock_validOn (by norm_num))
    trivial
  have hN' := hN.tail (.commit (.addBlock (wrapBlock 1)) (by rw [Op.run, wrapBlock_hashed]; exact hadd))
  obtain ⟨N, hN, hS, hm, hi, ha⟩ := MinerNode.Reachable.exists_increments hN' (2 ^ 64 - 1)
  have hv : N.bestBlockVersion.toNat = 0 := by
    rw [hN.inv.version, hi]
    norm_num
  refine ⟨N, hN, 0, 0, wrapBlock 0, by rw [hm]; rfl, UInt64.toNat.inj hv.symm,
    (wrapBlock 1).row, ?_, ?_⟩
  · rw [ha, hS, List.take_length, hbl]
    exact List.mem_append_right _ (List.mem_singleton_self _)
  · rw [Block.row_height, wrapBlock_height, wrapBlock_height, Int64.wrap_val ⟨by norm_num, by norm_num⟩,
      Int64.wrap_val ⟨by norm_num, by norm_num⟩]
    norm_num

end HeightWrap

end Cryptopuff
