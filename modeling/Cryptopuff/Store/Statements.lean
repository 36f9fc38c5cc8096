import Cryptopuff.Store.Ops

/-!
# What each statement does

One lemma per statement of `Cryptopuff.Store.State` for each direction a proof needs: what a
statement that succeeded left in the tables (`insertBlock_eq_ok`, `copyBalances_eq_ok`, ...)
and when it succeeds (`insertBlock_ok`, `copyBalances_ok`, ...), and how it moves the two
readings of a block's rows, `Store.balanceAt` and `Store.includedAt`. The operations'
proofs cite these and never unfold a statement.
-/

namespace Cryptopuff

namespace Store

variable {S S' : Store}

/-- The block hashes of the stored rows. -/
def hashes (S : Store) : List Hash := S.blocks.map (·.hash)

/-- The hashes of a table that holds the rows of `l`. -/
theorem hashes_eq_of_blocks {l : List Block} (h : S.blocks = l.map Block.row) :
    S.hashes = l.map Block.hash := by
  rw [hashes, h, List.map_map]
  rfl

/-! ## `blocks` -/

/-- `INSERT INTO blocks` succeeds exactly on a non-`NULL` hash not yet stored, and appends the row.
-/
theorem insertBlock_eq_ok {r : BlockRow} :
    S.insertBlock r = .ok S' ↔
      r.hash ≠ emptyHash ∧ r.hash ∉ S.hashes ∧ S' = { S with blocks := S.blocks ++ [r] } := by
  unfold insertBlock hashes
  split_ifs with h1 h2
  · simp [h1]
  · simp only [List.any_eq_true, beq_iff_eq] at h2
    obtain ⟨r', hr', he⟩ := h2
    simp only [reduceCtorEq, false_iff, not_and, not_not]
    exact fun _ h => absurd (List.mem_map.2 ⟨r', hr', he⟩) h
  · simp only [List.any_eq_true, beq_iff_eq, not_exists, not_and] at h2
    simp only [Except.ok.injEq, List.mem_map, not_exists, not_and]
    exact ⟨fun h => ⟨h1, h2, h.symm⟩, fun h => h.2.2.symm⟩

/-- The `UNIQUE` failure of `INSERT INTO blocks` names a stored hash. -/
theorem insertBlock_eq_pk {r : BlockRow} {m : String} :
    S.insertBlock r = .error (.constraint true m) → r.hash ∈ S.hashes := by
  unfold insertBlock hashes
  split_ifs with h1 h2
  · simp
  · simp only [List.any_eq_true, beq_iff_eq] at h2
    obtain ⟨r', hr', he⟩ := h2
    exact fun _ => List.mem_map.2 ⟨r', hr', he⟩
  · simp

/-- A stored hash makes `INSERT INTO blocks` fail on `UNIQUE`. -/
theorem insertBlock_of_mem {r : BlockRow} (h : r.hash ≠ emptyHash) (hm : r.hash ∈ S.hashes) :
    S.insertBlock r = .error (.constraint true "UNIQUE constraint failed: blocks.hash") := by
  obtain ⟨r', hr', he⟩ := List.mem_map.1 hm
  have : S.blocks.any (·.hash == r.hash) = true := List.any_eq_true.2 ⟨r', hr', by simp [he]⟩
  simp [insertBlock, h, this]

/-- The row `SELECT ... FROM blocks WHERE hash = ?` finds is stored, with that hash, which is not
`NULL`. -/
theorem selectBlock_eq_some {h : Hash} {r : BlockRow} (hs : S.selectBlock h = some r) :
    r ∈ S.blocks ∧ r.hash = h ∧ h ≠ emptyHash := by
  have := List.find?_some hs
  exact ⟨List.mem_of_find?_eq_some hs, (Hash.sqlEq_iff.1 this).1, (Hash.sqlEq_iff.1 this).2⟩

/-- In a list whose keys are distinct, searching by an element's key finds that element. -/
theorem find?_key_of_mem {α β : Type} [BEq β] [LawfulBEq β] {f : α → β} :
    ∀ {l : List α}, (l.map f).Nodup → ∀ {x : α}, x ∈ l → l.find? (fun y => f y == f x) = some x
  | [], _, _, hx => by cases hx
  | y :: ys, hn, x, hx => by
      rw [List.map_cons, List.nodup_cons] at hn
      rcases List.mem_cons.1 hx with rfl | hx
      · simp
      · have hne : f y ≠ f x := fun he => hn.1 (he ▸ List.mem_map_of_mem f hx)
        rw [List.find?_cons_of_neg _ (by simpa using hne)]
        exact find?_key_of_mem hn.2 hx

/-- With distinct hashes, the `SELECT` by a stored row's hash finds that row. -/
theorem selectBlock_of_mem {r : BlockRow} (hn : S.hashes.Nodup) (hr : r ∈ S.blocks)
    (he : r.hash ≠ emptyHash) : S.selectBlock r.hash = some r := by
  have : (fun r' : BlockRow => Hash.sqlEq r'.hash r.hash) = fun r' => r'.hash == r.hash := by
    funext r'; simp [Hash.sqlEq, he]
  rw [selectBlock, this]
  exact find?_key_of_mem hn hr

/-- The scan ends on a row it met, or where it started. -/
theorem foldl_best_mem :
    ∀ (l : List BlockRow) (init : Option BlockRow) {r : BlockRow},
      l.foldl bestStep init = some r → r ∈ l ∨ init = some r
  | [], _, _, h => .inr h
  | x :: l, init, r, h => by
      rcases foldl_best_mem l _ h with h | h
      · exact .inl (List.mem_cons_of_mem _ h)
      · rcases init with _ | b
        · cases h; exact .inl (List.mem_cons_self _ _)
        · simp only [bestStep] at h
          split_ifs at h
          · cases h; exact .inl (List.mem_cons_self _ _)
          · exact .inr h

/-- The scan ends on a row at least as high as every row it met and as where it started. -/
theorem foldl_best_max :
    ∀ (l : List BlockRow) (init : Option BlockRow) {r : BlockRow},
      l.foldl bestStep init = some r →
        (∀ b, init = some b → b.height ≤ r.height) ∧ ∀ x ∈ l, x.height ≤ r.height
  | [], _, _, h => ⟨fun b hb => by cases hb.symm.trans h; exact le_rfl, fun _ h => by cases h⟩
  | x :: l, init, r, h => by
      have hstep : ∃ y, bestStep init x = some y ∧ x.height ≤ y.height ∧
          ∀ b, init = some b → b.height ≤ y.height := by
        rcases init with _ | b
        · exact ⟨x, rfl, le_rfl, fun _ h => by cases h⟩
        · by_cases hb : b.height ≤ x.height
          · exact ⟨x, by simp [bestStep, hb], le_rfl, fun _ h => by cases h; exact hb⟩
          · exact ⟨b, by simp [bestStep, hb], by omega, fun _ h => by cases h; exact le_rfl⟩
      obtain ⟨y, hy, hxy, hby⟩ := hstep
      obtain ⟨h1, h2⟩ := foldl_best_max l _ h
      have hyr := h1 y hy
      refine ⟨fun b hb => (hby b hb).trans hyr, fun z hz => ?_⟩
      rcases List.mem_cons.1 hz with rfl | hz
      · exact hxy.trans hyr
      · exact h2 z hz

/-- The best row is a stored row. -/
theorem bestRow_mem {r : BlockRow} (h : S.bestRow = some r) : r ∈ S.blocks :=
  (foldl_best_mem S.blocks none h).resolve_right (by simp)

/-- The best row is as high as every stored row. -/
theorem bestRow_max {r : BlockRow} (h : S.bestRow = some r) : ∀ x ∈ S.blocks, x.height ≤ r.height :=
  (foldl_best_max S.blocks none h).2

/-- A table with rows is scanned to a best row. -/
theorem bestRow_isSome (h : S.blocks ≠ []) : ∃ r, S.bestRow = some r := by
  obtain ⟨rows, x, hx⟩ := List.eq_nil_or_concat S.blocks |>.resolve_left h
  rw [bestRow, hx, List.concat_eq_append, List.foldl_append, List.foldl_cons, List.foldl_nil]
  cases rows.foldl bestStep none with
  | none => exact ⟨x, rfl⟩
  | some b => by_cases hb : b.height ≤ x.height <;> simp [bestStep, hb]

/-- A last row at least as high as the rows before it is the best row. -/
theorem bestRow_of_max {rows : List BlockRow} {r : BlockRow} (h : S.blocks = rows ++ [r])
    (hmax : ∀ x ∈ rows, x.height ≤ r.height) : S.bestRow = some r := by
  rw [bestRow, h, List.foldl_append, List.foldl_cons, List.foldl_nil]
  cases hb : rows.foldl bestStep none with
  | none => rfl
  | some b =>
      have hm := (foldl_best_mem rows none hb).resolve_right (by simp)
      simp [bestStep, hmax b hm]

/-! ## `balances` -/

/-- `balances` keeps its primary key. -/
def BalancesKeyed (S : Store) : Prop := (S.balances.map BalanceRow.key).Nodup

/-- Appended rows join a block's rows when they carry its hash. -/
theorem balancesAt_append (rows : List BalanceRow) (h : Hash) :
    ({ S with balances := S.balances ++ rows } : Store).balancesAt h =
      S.balancesAt h ++ rows.filter (·.blockHash == h) := by
  simp [balancesAt, List.filter_append]

/-- Two blocks whose rows correspond one to one, address and balance kept, read the same balances.
-/
theorem balanceAt_of_balancesAt {S S' : Store} {h h' : Hash} {f : BalanceRow → BalanceRow}
    (hb : S'.balancesAt h' = (S.balancesAt h).map f) (hf : ∀ r, (f r).address = r.address)
    (hg : ∀ r, (f r).balance = r.balance) (a : List UInt8) : S'.balanceAt h' a = S.balanceAt h a := by
  simp only [balanceAt, hb, List.find?_map]
  have : ((fun r : BalanceRow => r.address == a) ∘ f) = fun r => r.address == a := by
    funext r; simp [hf]
  rw [this]
  cases (S.balancesAt h).find? (·.address == a) <;> simp [hg]

/-- `INSERT INTO balances` succeeds exactly on a non-`NULL` block hash and a key not yet stored, and
appends the row. -/
theorem insertBalance_eq_ok {r : BalanceRow} :
    S.insertBalance r = .ok S' ↔ r.blockHash ≠ emptyHash ∧
      r.key ∉ S.balances.map BalanceRow.key ∧ S' = { S with balances := S.balances ++ [r] } := by
  have hany : S.balances.any (fun r' => r'.blockHash == r.blockHash && r'.address == r.address) =
      decide (r.key ∈ S.balances.map BalanceRow.key) := by
    simp [BalanceRow.key, Prod.ext_iff, List.any_eq]
  unfold insertBalance
  rw [hany]
  by_cases h1 : r.blockHash = emptyHash
  · simp [h1]
  · by_cases h2 : r.key ∈ S.balances.map BalanceRow.key
    · simp [h1, h2]
    · simp only [h1, h2, decide_False, Bool.false_eq_true, ite_false, Except.ok.injEq, ne_eq,
        not_false_eq_true, true_and]
      exact eq_comm

/-- A loop of `INSERT INTO balances` that succeeded appended every row, and kept the key. -/
theorem foldlM_insertBalance_eq_ok (f : BalanceRow → BalanceRow) :
    ∀ (rows : List BalanceRow) {S S' : Store},
      rows.foldlM (fun S r => S.insertBalance (f r)) S = .ok S' →
        S' = { S with balances := S.balances ++ rows.map f } ∧
          (S.BalancesKeyed → S'.BalancesKeyed)
  | [], S, S', h => by
      cases Except.ok.inj h
      exact ⟨by simp, id⟩
  | r :: rows, S, S', h => by
      rw [List.foldlM_cons, Except.bind_eq_ok] at h
      obtain ⟨S1, h1, h2⟩ := h
      obtain ⟨-, hk, rfl⟩ := insertBalance_eq_ok.1 h1
      obtain ⟨rfl, hkeyed⟩ := foldlM_insertBalance_eq_ok f rows h2
      refine ⟨by simp, fun hn => hkeyed ?_⟩
      simp only [BalancesKeyed, List.map_append, List.map_cons, List.map_nil] at hn ⊢
      exact List.nodup_append.2 ⟨hn, List.nodup_singleton _,
        List.disjoint_singleton.2 hk⟩

/-- A loop of `INSERT INTO balances` succeeds on rows with non-`NULL` block hashes and fresh,
distinct keys. -/
theorem foldlM_insertBalance_ok (f : BalanceRow → BalanceRow) :
    ∀ (rows : List BalanceRow) (S : Store), (∀ r ∈ rows, (f r).blockHash ≠ emptyHash) →
      ((S.balances ++ rows.map f).map BalanceRow.key).Nodup →
        rows.foldlM (fun S r => S.insertBalance (f r)) S =
          .ok { S with balances := S.balances ++ rows.map f }
  | [], S, _, _ => by simp [pure, Except.pure]
  | r :: rows, S, hne, hn => by
      have hk : (f r).key ∉ S.balances.map BalanceRow.key := by
        intro hm
        simp only [List.map_cons, List.map_append, List.nodup_append, List.nodup_cons] at hn
        exact hn.2.2 hm (List.mem_cons_self _ _)
      have h1 : S.insertBalance (f r) = .ok { S with balances := S.balances ++ [f r] } :=
        insertBalance_eq_ok.2 ⟨hne r (List.mem_cons_self _ _), hk, rfl⟩
      rw [List.foldlM_cons, h1, Except.ok_bind,
        foldlM_insertBalance_ok f rows _ (fun r' hr' => hne r' (List.mem_cons_of_mem _ hr'))
          (by simpa using hn)]
      simp

/-- The parent's rows that `copyBalances` copies, under the new block's hash. -/
def copiedBalances (S : Store) (h p : Hash) : List BalanceRow :=
  (S.balances.filter fun r => Hash.sqlEq r.blockHash p).map fun r => { r with blockHash := h }

/-- What a `copyBalances` that succeeded appended: the parent's rows, under the new hash. -/
theorem copyBalances_eq_ok {h p : Hash} (hc : S.copyBalances h p = .ok S') :
    S' = { S with balances := S.balances ++ S.copiedBalances h p } ∧
      (S.BalancesKeyed → S'.BalancesKeyed) :=
  foldlM_insertBalance_eq_ok _ _ hc

/-- The copied rows are rows of the new block only, one for each row of the parent. -/
theorem copiedBalances_filter {h p h' : Hash} (hp : p ≠ emptyHash) :
    (S.copiedBalances h p).filter (·.blockHash == h') =
      if h' = h then (S.balancesAt p).map fun r => { r with blockHash := h } else [] := by
  have : (fun r : BalanceRow => Hash.sqlEq r.blockHash p) = (·.blockHash == p) := by
    funext r; simp [Hash.sqlEq, hp]
  split_ifs with hh
  · subst hh
    simp [copiedBalances, balancesAt, this, List.filter_map, Function.comp_def]
  · simp [copiedBalances, List.filter_map, Function.comp_def, Ne.symm hh]

/-- After the copy, the new block reads the parent's balances. -/
theorem balanceAt_copy {h p : Hash} (hc : S.copyBalances h p = .ok S') (hp : p ≠ emptyHash)
    (hfresh : S.balancesAt h = []) (a : List UInt8) : S'.balanceAt h a = S.balanceAt p a := by
  obtain ⟨rfl, -⟩ := copyBalances_eq_ok hc
  refine balanceAt_of_balancesAt (f := fun r => { r with blockHash := h }) ?_ (fun _ => rfl)
    (fun _ => rfl) a
  rw [balancesAt_append, hfresh, copiedBalances_filter hp, if_pos rfl, List.nil_append]

/-- The copy leaves the balances of every other block alone. -/
theorem balanceAt_copy_of_ne {h p h' : Hash} (hc : S.copyBalances h p = .ok S') (hp : p ≠ emptyHash)
    (hh : h' ≠ h) (a : List UInt8) : S'.balanceAt h' a = S.balanceAt h' a := by
  obtain ⟨rfl, -⟩ := copyBalances_eq_ok hc
  refine balanceAt_of_balancesAt (f := id) ?_ (fun _ => rfl) (fun _ => rfl) a
  rw [balancesAt_append, copiedBalances_filter hp, if_neg hh, List.append_nil, List.map_id]

/-- A block's rows are the rows with its hash. -/
theorem mem_balancesAt {h : Hash} {r : BalanceRow} :
    r ∈ S.balancesAt h ↔ r ∈ S.balances ∧ r.blockHash = h := by
  simp [balancesAt]

/-- The row `balanceAt` reads, when there is one. -/
theorem find?_balancesAt {h : Hash} {a : List UInt8} {r : BalanceRow}
    (hr : (S.balancesAt h).find? (·.address == a) = some r) :
    r ∈ S.balances ∧ r.blockHash = h ∧ r.address = a := by
  have := mem_balancesAt.1 (List.mem_of_find?_eq_some hr)
  exact ⟨this.1, this.2, by simpa using List.find?_some hr⟩

/-- Whether the block `h` has a row for `a`. -/
def hasBalanceRow (S : Store) (h : Hash) (a : List UInt8) : Bool :=
  ((S.balancesAt h).find? (·.address == a)).isSome

/-- A nonzero balance is read from a row. -/
theorem hasBalanceRow_of_ne_zero {h : Hash} {a : List UInt8} (hb : S.balanceAt h a ≠ 0) :
    S.hasBalanceRow h a = true := by
  unfold hasBalanceRow
  cases hn : (S.balancesAt h).find? (·.address == a) with
  | none => simp [balanceAt, hn] at hb
  | some r => rfl

/-- A statement that rewrites rows in place, keeping their keys. -/
theorem balanceAt_map {g : BalanceRow → BalanceRow} (hk : ∀ r, (g r).key = r.key) (h : Hash)
    (a : List UInt8) :
    ({ S with balances := S.balances.map g } : Store).balanceAt h a =
      match (S.balancesAt h).find? (·.address == a) with
      | some r => (g r).balance
      | none => 0 := by
  have hb : ∀ r, (g r).blockHash = r.blockHash := fun r => congrArg Prod.fst (hk r)
  have ha : ∀ r, (g r).address = r.address := fun r => congrArg Prod.snd (hk r)
  have : ({ S with balances := S.balances.map g } : Store).balancesAt h = (S.balancesAt h).map g := by
    simp only [balancesAt, List.filter_map]
    congr 1
    exact List.filter_congr fun r _ => by simp [hb]
  simp only [balanceAt, this, List.find?_map]
  have : ((fun r : BalanceRow => r.address == a) ∘ g) = fun r => r.address == a := by
    funext r; simp [ha]
  rw [this]
  cases (S.balancesAt h).find? (·.address == a) <;> rfl

/-- Rewriting rows in place, keys kept, keeps the table keyed. -/
theorem BalancesKeyed.map {g : BalanceRow → BalanceRow} (hk : ∀ r, (g r).key = r.key)
    (hn : S.BalancesKeyed) : ({ S with balances := S.balances.map g } : Store).BalancesKeyed := by
  have : BalanceRow.key ∘ g = BalanceRow.key := funext hk
  simpa [BalancesKeyed, List.map_map, this] using hn

/-- The rewrite `debit` makes to a row. -/
def debitRow (h : Hash) (a : List UInt8) (d : Int) (r : BalanceRow) : BalanceRow :=
  if Hash.sqlEq r.blockHash h && r.address == a then { r with balance := r.balance - d } else r

/-- `debit` keeps each row's key. -/
theorem debitRow_key (h : Hash) (a : List UInt8) (d : Int) (r : BalanceRow) :
    (debitRow h a d r).key = r.key := by
  unfold debitRow; split <;> rfl

/-- `debit` rewrites the rows in place. -/
theorem debit_eq (h : Hash) (a : List UInt8) (d : Int) :
    S.debit h a d = { S with balances := S.balances.map (debitRow h a d) } := rfl

/-- `debit` takes `d` from the row of `a` at `h`, where there is one. -/
theorem balanceAt_debit {h : Hash} {a : List UInt8} {d : Int} (hh : h ≠ emptyHash) (h' : Hash)
    (a' : List UInt8) :
    (S.debit h a d).balanceAt h' a' =
      S.balanceAt h' a' - if h' = h ∧ a' = a ∧ S.hasBalanceRow h a = true then d else 0 := by
  rw [debit_eq, balanceAt_map (debitRow_key h a d)]
  unfold balanceAt hasBalanceRow
  cases hr : (S.balancesAt h').find? (·.address == a') with
  | none =>
      have : ¬(h' = h ∧ a' = a ∧ ((S.balancesAt h).find? (·.address == a)).isSome = true) := by
        rintro ⟨rfl, rfl, hn⟩; simp [hr] at hn
      rw [if_neg this]; rfl
  | some r =>
      obtain ⟨-, rfl, rfl⟩ := find?_balancesAt hr
      by_cases hc : r.blockHash = h ∧ r.address = a
      · obtain ⟨rfl, rfl⟩ := hc
        simp [debitRow, Hash.sqlEq, hh, hr]
      · have : ¬(Hash.sqlEq r.blockHash h && r.address == a) = true := by
          simpa [Hash.sqlEq, hh] using hc
        rw [if_neg fun h3 => hc ⟨h3.1, h3.2.1⟩]
        simp [debitRow, this]

/-- `debit` keeps the table keyed. -/
theorem BalancesKeyed.debit (h : Hash) (a : List UInt8) (d : Int) (hn : S.BalancesKeyed) :
    (S.debit h a d).BalancesKeyed := by
  rw [debit_eq]; exact hn.map (debitRow_key h a d)

/-- Within one block, a keyed table has one row per address. -/
theorem BalancesKeyed.nodup_address (hn : S.BalancesKeyed) (h : Hash) :
    ((S.balancesAt h).map (·.address)).Nodup := by
  have hsub : ((S.balancesAt h).map BalanceRow.key).Nodup :=
    hn.sublist (List.Sublist.map _ (List.filter_sublist _))
  have : (S.balancesAt h).map BalanceRow.key = ((S.balancesAt h).map (·.address)).map (h, ·) := by
    rw [List.map_map]
    exact List.map_congr_left fun r hr => by
      simp [BalanceRow.key, (mem_balancesAt.1 hr).2]
  rw [this] at hsub
  exact List.Nodup.of_map _ hsub

/-- The copy succeeds onto a block with no rows yet. -/
theorem copyBalances_ok {h p : Hash} (hK : S.BalancesKeyed) (hh : h ≠ emptyHash)
    (hp : p ≠ emptyHash) (hfb : S.balancesAt h = []) :
    S.copyBalances h p = .ok { S with balances := S.balances ++ S.copiedBalances h p } := by
  have hrows : (S.balances.filter fun r => Hash.sqlEq r.blockHash p) = S.balancesAt p := by
    unfold balancesAt; congr 1; funext r; simp [Hash.sqlEq, hp]
  apply foldlM_insertBalance_ok _ _ _ (fun _ _ => hh)
  rw [List.map_append, List.nodup_append]
  refine ⟨hK, ?_, fun x hx1 hx2 => ?_⟩
  · have : ((S.balancesAt p).map fun r => ({ r with blockHash := h } : BalanceRow)).map
        BalanceRow.key = ((S.balancesAt p).map (·.address)).map (h, ·) := by
      simp [BalanceRow.key, Function.comp_def]
    rw [hrows, this]
    exact (hK.nodup_address p).map fun a b hab => (Prod.mk.inj hab).2
  · obtain ⟨r, hr, rfl⟩ := List.mem_map.1 hx1
    have : r.blockHash = h := by
      simp only [List.map_map, List.mem_map, Function.comp_apply] at hx2
      obtain ⟨_, -, he⟩ := hx2
      exact (congrArg Prod.fst he).symm
    have := mem_balancesAt.2 ⟨hr, this⟩
    rw [hfb] at this
    cases this

/-- In a keyed table, a row's balance is the balance of its key. -/
theorem balanceAt_of_mem (hn : S.BalancesKeyed) {r : BalanceRow} (hr : r ∈ S.balances) :
    S.balanceAt r.blockHash r.address = r.balance := by
  have hf : (S.balancesAt r.blockHash).find? (·.address == r.address) = some r :=
    find?_key_of_mem (hn.nodup_address r.blockHash) (mem_balancesAt.2 ⟨hr, rfl⟩)
  simp only [balanceAt, hf]

/-- An address with no row at a block has balance 0 there. -/
theorem balanceAt_of_not_mem {h : Hash} {a : List UInt8}
    (hr : ∀ r ∈ S.balances, r.key ≠ (h, a)) : S.balanceAt h a = 0 := by
  unfold balanceAt
  cases hf : (S.balancesAt h).find? (·.address == a) with
  | none => rfl
  | some r =>
      obtain ⟨hm, rfl, rfl⟩ := find?_balancesAt hf
      exact absurd rfl (hr r hm)

/-- The rewrite `credit` makes to the row it finds. -/
def creditRow (h : Hash) (a : List UInt8) (d : Int) (r : BalanceRow) : BalanceRow :=
  if r.blockHash == h && r.address == a then { r with balance := r.balance + d } else r

/-- `credit` keeps each row's key when it rewrites one. -/
theorem creditRow_key (h : Hash) (a : List UInt8) (d : Int) (r : BalanceRow) :
    (creditRow h a d r).key = r.key := by
  unfold creditRow; split <;> rfl

/-- The `SELECT 1 FROM balances` of `credit` asks whether the block has a row for the address. -/
theorem any_key_iff {h : Hash} {a : List UInt8} :
    S.balances.any (fun r => r.blockHash == h && r.address == a) = S.hasBalanceRow h a := by
  rw [Bool.eq_iff_iff]
  simp [hasBalanceRow, balancesAt, List.any_eq_true, List.find?_isSome]

/-- `credit` adds `d` to the balance of `a` at `h` and keeps the key. -/
theorem credit_eq_ok {h : Hash} {a : List UInt8} {d : Int} (hc : S.credit h a d = .ok S') :
    h ≠ emptyHash ∧ (∃ rows, S' = { S with balances := rows }) ∧
      (S.BalancesKeyed → S'.BalancesKeyed) ∧
      ∀ h' a', S'.balanceAt h' a' = S.balanceAt h' a' + if h' = h ∧ a' = a then d else 0 := by
  unfold credit at hc
  split_ifs at hc with hh hex
  · cases Except.ok.inj hc
    refine ⟨hh, ⟨_, rfl⟩, fun hn => hn.map (creditRow_key h a d), fun h' a' => ?_⟩
    rw [any_key_iff] at hex
    rw [show S.balances.map (fun r => if r.blockHash == h && r.address == a then
        { r with balance := r.balance + d } else r) = S.balances.map (creditRow h a d) from rfl,
      balanceAt_map (creditRow_key h a d)]
    unfold balanceAt
    cases hr : (S.balancesAt h').find? (·.address == a') with
    | none =>
        have : ¬(h' = h ∧ a' = a) := by
          rintro ⟨rfl, rfl⟩; simp [hasBalanceRow, hr] at hex
        simp [this]
    | some r =>
        obtain ⟨-, rfl, rfl⟩ := find?_balancesAt hr
        by_cases hc : r.blockHash = h ∧ r.address = a
        · obtain ⟨rfl, rfl⟩ := hc
          simp [creditRow]
        · rw [if_neg hc]
          simp only [creditRow, Bool.and_eq_true, beq_iff_eq, hc, ite_false, add_zero]
  · cases Except.ok.inj hc
    rw [any_key_iff] at hex
    refine ⟨hh, ⟨_, rfl⟩, fun hn => ?_, fun h' a' => ?_⟩
    · have hk : (h, a) ∉ S.balances.map BalanceRow.key := by
        rintro hm
        obtain ⟨r, hr, he⟩ := List.mem_map.1 hm
        have : S.balances.any (fun r => r.blockHash == h && r.address == a) = true :=
          List.any_eq_true.2 ⟨r, hr, by
            simp only [BalanceRow.key, Prod.mk.injEq] at he; simp [he.1, he.2]⟩
        rw [any_key_iff] at this
        exact hex this
      simp only [BalancesKeyed, List.map_append, List.map_cons, List.map_nil] at hn ⊢
      exact List.nodup_append.2 ⟨hn, List.nodup_singleton _, List.disjoint_singleton.2 hk⟩
    · unfold balanceAt
      rw [balancesAt_append, List.find?_append]
      by_cases hc : h' = h ∧ a' = a
      · obtain ⟨rfl, rfl⟩ := hc
        have hn : (S.balancesAt h').find? (·.address == a') = none := by
          simpa [hasBalanceRow] using hex
        simp [hn]
      · rw [if_neg hc]
        have : ([(⟨h, a, d⟩ : BalanceRow)].filter (·.blockHash == h')).find? (·.address == a') = none := by
          by_cases hh' : h' = h
          · subst hh'; simp [show a ≠ a' from fun he => hc ⟨rfl, he.symm⟩]
          · simp [Ne.symm hh']
        rw [this, Option.or_none]
        cases (S.balancesAt h').find? (·.address == a') <;> simp

/-- `credit` succeeds on every non-`NULL` block hash. -/
theorem credit_ok {h : Hash} (hh : h ≠ emptyHash) (a : List UInt8) (d : Int) :
    ∃ S', S.credit h a d = .ok S' := by
  unfold credit
  split_ifs with h1
  · exact absurd h1 hh
  all_goals exact ⟨_, rfl⟩

/-- `DELETE FROM balances WHERE balance = 0` keeps the nonzero rows. -/
theorem deleteZeroBalances_eq :
    S.deleteZeroBalances = { S with balances := S.balances.filter (·.balance ≠ 0) } := rfl

/-- Deleting rows keeps the table keyed. -/
theorem BalancesKeyed.deleteZeroBalances (hn : S.BalancesKeyed) :
    S.deleteZeroBalances.BalancesKeyed :=
  hn.sublist (List.Sublist.map _ (List.filter_sublist _))

/-- Dropping the zero rows reads the same balances. -/
theorem balanceAt_deleteZeroBalances (hn : S.BalancesKeyed) (h : Hash) (a : List UInt8) :
    S.deleteZeroBalances.balanceAt h a = S.balanceAt h a := by
  by_cases hex : ∃ r ∈ S.balances, r.key = (h, a)
  · obtain ⟨r, hr, hk⟩ := hex
    obtain ⟨rfl, rfl⟩ : r.blockHash = h ∧ r.address = a := by simpa [BalanceRow.key] using hk
    rw [balanceAt_of_mem hn hr]
    by_cases hz : r.balance = 0
    · rw [hz]
      apply balanceAt_of_not_mem
      intro r' hr' hk'
      obtain ⟨hr'', hz'⟩ := List.mem_filter.1 hr'
      have : r' = r := by
        have hmem := List.mem_map_of_mem BalanceRow.key hr''
        exact (List.inj_on_of_nodup_map hn hr'' hr (hk'.trans hk.symm))
      subst this
      simp [hz] at hz'
    · exact balanceAt_of_mem hn.deleteZeroBalances (List.mem_filter.2 ⟨hr, by simpa using hz⟩)
  · push_neg at hex
    rw [balanceAt_of_not_mem hex, balanceAt_of_not_mem]
    exact fun r hr => hex r (List.mem_filter.1 hr).1

/-! ## `included_txs` and `block_txs` -/

/-- An insert into `included_txs` or `block_txs` succeeds exactly on non-`NULL` hashes and a row not
yet stored, and appends it. -/
theorem insertLink_eq_ok {t : String} {rows rows' : List Link} {l : Link} :
    insertLink t rows l = .ok rows' ↔
      l.blockHash ≠ emptyHash ∧ l.txHash ≠ emptyHash ∧ l ∉ rows ∧ rows' = rows ++ [l] := by
  unfold insertLink
  split_ifs with h1 h2 h3 <;> simp_all [eq_comm]

/-- `INSERT INTO included_txs`, by `insertLink_eq_ok`. -/
theorem insertIncluded_eq_ok {l : Link} :
    S.insertIncluded l = .ok S' ↔ l.blockHash ≠ emptyHash ∧ l.txHash ≠ emptyHash ∧
      l ∉ S.includedTxs ∧ S' = { S with includedTxs := S.includedTxs ++ [l] } := by
  unfold insertIncluded
  cases h : insertLink "included_txs" S.includedTxs l with
  | error e =>
      simp only [Except.map, reduceCtorEq, false_iff, not_and]
      intro h1 h2 h3 _
      rw [insertLink_eq_ok.2 ⟨h1, h2, h3, rfl⟩] at h
      cases h
  | ok rows =>
      obtain ⟨h1, h2, h3, rfl⟩ := insertLink_eq_ok.1 h
      simp [Except.map, h1, h2, h3, eq_comm]

/-- `INSERT INTO block_txs`, by `insertLink_eq_ok`. -/
theorem insertBlockTx_eq_ok {l : Link} :
    S.insertBlockTx l = .ok S' ↔ l.blockHash ≠ emptyHash ∧ l.txHash ≠ emptyHash ∧
      l ∉ S.blockTxs ∧ S' = { S with blockTxs := S.blockTxs ++ [l] } := by
  unfold insertBlockTx
  cases h : insertLink "block_txs" S.blockTxs l with
  | error e =>
      simp only [Except.map, reduceCtorEq, false_iff, not_and]
      intro h1 h2 h3 _
      rw [insertLink_eq_ok.2 ⟨h1, h2, h3, rfl⟩] at h
      cases h
  | ok rows =>
      obtain ⟨h1, h2, h3, rfl⟩ := insertLink_eq_ok.1 h
      simp [Except.map, h1, h2, h3, eq_comm]

/-- The parent's inclusion rows that `copyIncluded` copies, under the new block's hash. -/
def copiedIncluded (S : Store) (h p : Hash) : List Link :=
  (S.includedTxs.filter fun l => Hash.sqlEq l.blockHash p).map fun l => ⟨h, l.txHash⟩

/-- A loop of `INSERT INTO included_txs` that succeeded appended every row, and kept the table free
of duplicates. -/
theorem foldlM_insertIncluded_eq_ok (h : Hash) :
    ∀ (rows : List Link) {S S' : Store},
      rows.foldlM (fun S l => S.insertIncluded ⟨h, l.txHash⟩) S = .ok S' →
        S' = { S with includedTxs := S.includedTxs ++ rows.map fun l => ⟨h, l.txHash⟩ } ∧
          (S.includedTxs.Nodup → S'.includedTxs.Nodup)
  | [], S, S', hc => by
      cases Except.ok.inj hc
      exact ⟨by simp, id⟩
  | l :: rows, S, S', hc => by
      rw [List.foldlM_cons, Except.bind_eq_ok] at hc
      obtain ⟨S1, h1, h2⟩ := hc
      obtain ⟨-, -, hk, rfl⟩ := insertIncluded_eq_ok.1 h1
      obtain ⟨rfl, hnd⟩ := foldlM_insertIncluded_eq_ok h rows h2
      refine ⟨by simp, fun hn => hnd ?_⟩
      exact List.nodup_append.2 ⟨hn, List.nodup_singleton _, List.disjoint_singleton.2 hk⟩

/-- A loop of `INSERT INTO included_txs` succeeds on non-`NULL` hashes and fresh, distinct rows. -/
theorem foldlM_insertIncluded_ok (h : Hash) (hh : h ≠ emptyHash) :
    ∀ (rows : List Link) (S : Store), (∀ l ∈ rows, l.txHash ≠ emptyHash) →
      (S.includedTxs ++ rows.map fun l => (⟨h, l.txHash⟩ : Link)).Nodup →
        rows.foldlM (fun S l => S.insertIncluded ⟨h, l.txHash⟩) S =
          .ok { S with includedTxs := S.includedTxs ++ rows.map fun l => ⟨h, l.txHash⟩ }
  | [], S, _, _ => by simp [pure, Except.pure]
  | l :: rows, S, ht, hn => by
      have hk : (⟨h, l.txHash⟩ : Link) ∉ S.includedTxs := by
        intro hm
        simp only [List.map_cons, List.nodup_append, List.nodup_cons] at hn
        exact hn.2.2 hm (List.mem_cons_self _ _)
      have h1 : S.insertIncluded ⟨h, l.txHash⟩ =
          .ok { S with includedTxs := S.includedTxs ++ [⟨h, l.txHash⟩] } :=
        insertIncluded_eq_ok.2 ⟨hh, ht l (List.mem_cons_self _ _), hk, rfl⟩
      rw [List.foldlM_cons, h1, Except.ok_bind,
        foldlM_insertIncluded_ok h hh rows _ (fun l' hl' => ht l' (List.mem_cons_of_mem _ hl'))
          (by simpa using hn)]
      simp

/-- What a `copyIncluded` that succeeded appended: the parent's inclusion rows, under the new hash.
-/
theorem copyIncluded_eq_ok {h p : Hash} (hc : S.copyIncluded h p = .ok S') :
    S' = { S with includedTxs := S.includedTxs ++ S.copiedIncluded h p } ∧
      (S.includedTxs.Nodup → S'.includedTxs.Nodup) :=
  foldlM_insertIncluded_eq_ok h _ hc

/-- The copy succeeds onto a block with no rows yet. -/
theorem copyIncluded_ok {h p : Hash} (hn : S.includedTxs.Nodup) (hh : h ≠ emptyHash)
    (ht : ∀ l ∈ S.includedTxs, l.txHash ≠ emptyHash)
    (hfi : (S.includedTxs.filter fun l => l.blockHash == h) = []) :
    S.copyIncluded h p = .ok { S with includedTxs := S.includedTxs ++ S.copiedIncluded h p } := by
  apply foldlM_insertIncluded_ok h hh _ _ (fun l hl => ht l (List.mem_filter.1 hl).1)
  rw [List.nodup_append]
  refine ⟨hn, (hn.filter _).map_on fun x hx y hy hxy => ?_, fun l hl1 hl2 => ?_⟩
  · have hx' := Hash.sqlEq_iff.1 (List.mem_filter.1 hx).2
    have hy' := Hash.sqlEq_iff.1 (List.mem_filter.1 hy).2
    cases x; cases y
    simp only [Link.mk.injEq] at hxy hx' hy' ⊢
    exact ⟨hx'.1.trans hy'.1.symm, hxy.2⟩
  · obtain ⟨l', -, rfl⟩ := List.mem_map.1 hl2
    have : (⟨h, l'.txHash⟩ : Link) ∈ S.includedTxs.filter fun l => l.blockHash == h :=
      List.mem_filter.2 ⟨hl1, by simp⟩
    rw [hfi] at this
    cases this

/-- Appended rows join a block's inclusion set when they carry its hash. -/
theorem includedAt_append {rows : List Link} (hi : S'.includedTxs = S.includedTxs ++ rows)
    (h : Hash) : S'.includedAt h = S.includedAt h ++ (rows.filter (·.blockHash == h)).map (·.txHash) := by
  simp [includedAt, hi, List.filter_append]

/-- The copied inclusion rows give the new block the parent's inclusion set, and no other block any.
-/
theorem copiedIncluded_filter {h p h' : Hash} (hp : p ≠ emptyHash) :
    ((S.copiedIncluded h p).filter (·.blockHash == h')).map (·.txHash) =
      if h' = h then S.includedAt p else [] := by
  have : (fun l : Link => Hash.sqlEq l.blockHash p) = (·.blockHash == p) := by
    funext l; simp [Hash.sqlEq, hp]
  split_ifs with hh
  · subst hh
    simp [copiedIncluded, includedAt, this, List.filter_map, Function.comp_def]
  · simp [copiedIncluded, List.filter_map, Function.comp_def, Ne.symm hh]

/-- `SELECT 1 FROM included_txs` answers membership in the inclusion set. -/
theorem selectIncluded_iff {h t : Hash} (hh : h ≠ emptyHash) (ht : t ≠ emptyHash) :
    S.selectIncluded h t = true ↔ t ∈ S.includedAt h := by
  simp only [selectIncluded, includedAt, Hash.sqlEq, hh, ht, List.any_eq_true, List.mem_map,
    List.mem_filter, Bool.and_eq_true, beq_iff_eq, bne_iff_ne, ne_eq, not_false_eq_true, and_true]
  constructor
  · rintro ⟨l, hl, rfl, rfl⟩; exact ⟨l, ⟨hl, rfl⟩, rfl⟩
  · rintro ⟨l, ⟨hl, rfl⟩, rfl⟩; exact ⟨l, hl, rfl, rfl⟩

/-! ## `txs` and `peers` -/

/-- `INSERT OR IGNORE INTO txs` skips a `NULL` or stored hash and appends the row otherwise. -/
theorem addTx_eq (s : SignedTx) :
    S.addTx s = if s.hash = emptyHash ∨ s.hash ∈ S.txs.map (·.hash) then S
      else { S with txs := S.txs ++ [s.row] } := by
  simp [addTx, List.any_eq_true]

@[simp] theorem debit_blocks (h : Hash) (a : List UInt8) (d : Int) :
    (S.debit h a d).blocks = S.blocks := rfl
@[simp] theorem debit_includedTxs (h : Hash) (a : List UInt8) (d : Int) :
    (S.debit h a d).includedTxs = S.includedTxs := rfl
@[simp] theorem debit_blockTxs (h : Hash) (a : List UInt8) (d : Int) :
    (S.debit h a d).blockTxs = S.blockTxs := rfl
@[simp] theorem debit_txs (h : Hash) (a : List UInt8) (d : Int) :
    (S.debit h a d).txs = S.txs := rfl
@[simp] theorem addTx_txs (s : SignedTx) :
    (S.addTx s).txs = if s.hash = emptyHash ∨ s.hash ∈ S.txs.map (·.hash) then S.txs
      else S.txs ++ [s.row] := by
  rw [addTx_eq]; split <;> rfl
@[simp] theorem addTx_balances (s : SignedTx) : (S.addTx s).balances = S.balances := by
  unfold addTx; split <;> rfl
@[simp] theorem addTx_includedTxs (s : SignedTx) : (S.addTx s).includedTxs = S.includedTxs := by
  unfold addTx; split <;> rfl
@[simp] theorem addTx_blockTxs (s : SignedTx) : (S.addTx s).blockTxs = S.blockTxs := by
  unfold addTx; split <;> rfl
@[simp] theorem addTx_blocks (s : SignedTx) : (S.addTx s).blocks = S.blocks := by
  unfold addTx; split <;> rfl
@[simp] theorem addTx_peers (s : SignedTx) : (S.addTx s).peers = S.peers := by
  unfold addTx; split <;> rfl

/-- `addTx` keeps the hashes of `txs` distinct. -/
theorem addTx_txs_nodup (s : SignedTx) (hn : (S.txs.map (·.hash)).Nodup) :
    ((S.addTx s).txs.map (·.hash)).Nodup := by
  rw [addTx_txs]
  split_ifs with h
  · exact hn
  · push_neg at h
    rw [List.map_append, List.nodup_append]
    exact ⟨hn, List.nodup_singleton _, List.disjoint_singleton.2 h.2⟩

/-- A row after `addTx` was stored before, or is the new transaction's. -/
theorem mem_addTx_txs {s : SignedTx} {r : TxRow} (hr : r ∈ (S.addTx s).txs) :
    r ∈ S.txs ∨ (r = s.row ∧ s.hash ≠ emptyHash) := by
  rw [addTx_txs] at hr
  split_ifs at hr with h
  · exact .inl hr
  · rcases List.mem_append.1 hr with hr | hr
    · exact .inl hr
    · exact .inr ⟨List.mem_singleton.1 hr, fun he => h (.inl he)⟩

/-- The transaction loop of `addBlock` keeps the hashes of `txs` distinct. -/
theorem foldl_addTx_txs_nodup (txs : List SignedTx) (hn : (S.txs.map (·.hash)).Nodup) :
    ((txs.foldl addTx S).txs.map (·.hash)).Nodup := by
  induction txs generalizing S with
  | nil => exact hn
  | cons s txs ih => exact ih (addTx_txs_nodup s hn)

/-- A row after the transaction loop was stored before, or is one of the block's transactions. -/
theorem mem_foldl_addTx_txs {txs : List SignedTx} {r : TxRow} (hr : r ∈ (txs.foldl addTx S).txs) :
    r ∈ S.txs ∨ ∃ s ∈ txs, r = s.row ∧ s.hash ≠ emptyHash := by
  induction txs generalizing S with
  | nil => exact .inl hr
  | cons s txs ih =>
      rcases ih hr with hr | ⟨s', hs', hrow⟩
      · rcases mem_addTx_txs hr with hr | hrow
        · exact .inl hr
        · exact .inr ⟨s, List.mem_cons_self _ _, hrow⟩
      · exact .inr ⟨s', List.mem_cons_of_mem _ hs', hrow⟩

/-- `deleteTx` keeps a sublist of `txs` and touches nothing else. -/
theorem deleteTx_eq (h : Hash) : ∃ rows, rows.Sublist S.txs ∧ S.deleteTx h = { S with txs := rows } := by
  unfold deleteTx
  split_ifs
  · exact ⟨S.txs, List.Sublist.refl _, rfl⟩
  · exact ⟨_, List.filter_sublist _, rfl⟩

end Store

end Cryptopuff
