import Cryptopuff.Basic

/-!
# Transactions and their retry (database/tx.go)

`DB.Transact(f)` opens a transaction, runs the closure `f` in it, and commits when `f` returned
nil or rolls back when it did not; it returns the error of `Begin`, of `f` or of `COMMIT`, and
only logs the rollback's. `DB.TransactWithRetry(f)` refuses a budget of zero tries, then
repeats `Transact(f)` while the error is deadlock-class and attempts are left, sleeping
`backoff(i)` after attempt `i` unless it was the last, and wraps the last error in `TxError`.

The closure is a function of the store it reads and of the variables it captured. Its writes
to the store reach it only through `COMMIT`; its writes to captured variables stay whatever
happens to the transaction. What the database answers (an error at `Begin`, at the closure's
statements, at `COMMIT`) is a `Backend` value per attempt, so a run is determined by the
budget and the database's answers, and the theorems quantify over both.

`TransactWithRetry` is a small-step machine (`Call.step`, one pass of the loop's body) so that
calls can interleave on one store (`interleave`); `transactWithRetry` runs one call to its end.
`transactWithRetry_contract` says what the run does for every budget and every sequence of
answers. The guard refuses only a budget of zero, so a negative one passes it and the call
returns `TxError` with no cause and no attempt (`transactWithRetry_negative`).
-/

namespace Cryptopuff

namespace Database

/-- An error `TransactWithRetry` returns: the database's or the closure's own error, as it
came; one made by `errors.New`; or `TxError{cause, tries}`. -/
inductive TxErr (ε : Type) where
  | cause (e : ε)
  | new (msg : String)
  | txError (cause : Option ε) (tries : Int)
deriving DecidableEq

/-- What the database answers to one attempt: the error of `Begin`, the error it gives the
closure's first statement, and the error of `COMMIT`. -/
structure Backend (ε : Type) where
  begin : Option ε
  exec : Option ε
  commit : Option ε

/-- What the loop does that a caller can observe, in order: attempt `i`, or
`time.Sleep(d.backoff(i))`. -/
inductive Event where
  | attempt (i : Nat)
  | sleep (i : Nat)
deriving DecidableEq

variable {ε σ γ : Type}

/-- `DB.Transact(f)`: `Begin`, then the closure, then `COMMIT` when it returned nil. It returns
the error of `Begin`, of the closure or of `COMMIT`, and the store and captured variables
after it: the store the closure wrote when `COMMIT` succeeded, the old one otherwise. -/
def transact (f : σ → γ → Except ε σ × γ) (db : Backend ε) (S : σ) (c : γ) : Option ε × σ × γ :=
  match db.begin with
  | some e => (some e, S, c)
  | none =>
      match db.exec with
      | some e => (some e, S, c)
      | none =>
          match f S c with
          | (.error e, c') => (some e, S, c')
          | (.ok S', c') =>
              match db.commit with
              | some e => (some e, S, c')
              | none => (none, S', c')

/-- A call of `TransactWithRetry`: in the loop at index `i`, `err` the error of the attempt
before and `c` the closure's captured variables; or returned. -/
inductive Call (ε γ : Type) where
  | loop (i : Nat) (err : Option ε) (c : γ)
  | done (r : Except (TxErr ε) Unit) (c : γ)

/-- Entering `TransactWithRetry`: a budget of zero is refused, otherwise the loop starts at
index `0` with `err` nil. -/
def Call.start (tries : Int) (c : γ) : Call ε γ :=
  if tries = 0 then .done (.error (.new "database: tries must be 1 or greater")) c
  else .loop 0 none c

/-- One pass of the loop: past the budget, return `TxError{err, tries}`; otherwise attempt
`Transact(f)` on what the database answers, return on nil or on an error that is not
deadlock-class, and otherwise sleep unless this was the last index. -/
def Call.step (isDeadlock : ε → Bool) (f : σ → γ → Except ε σ × γ) (tries : Int)
    (db : Backend ε) (S : σ) : Call ε γ → Call ε γ × σ × List Event
  | .loop i err c =>
      if (i : Int) < tries then
        match transact f db S c with
        | (none, S', c') => (.done (.ok ()) c', S', [.attempt i])
        | (some e, S', c') =>
            if isDeadlock e then
              (.loop (i + 1) (some e) c', S',
                .attempt i :: if (i : Int) ≠ tries - 1 then [.sleep i] else [])
            else (.done (.error (.cause e)) c', S', [.attempt i])
      else (.done (.error (.txError err tries)) c, S, [])
  | .done r c => (.done r c, S, [])

/-- `n` passes of one call's loop, attempt `i` answered by `db i`, with the events in order. -/
def Call.run (isDeadlock : ε → Bool) (f : σ → γ → Except ε σ × γ) (tries : Int)
    (db : Nat → Backend ε) : Nat → Call ε γ → σ → Call ε γ × σ × List Event
  | 0, k, S => (k, S, [])
  | _ + 1, .done r c, S => (.done r c, S, [])
  | n + 1, .loop i err c, S =>
      let s := (Call.loop i err c).step isDeadlock f tries (db i) S
      let t := Call.run isDeadlock f tries db n s.1 s.2.1
      (t.1, t.2.1, s.2.2 ++ t.2.2)

/-- `DB.TransactWithRetry(f)` run to its end: at most `tries` attempts and the pass that
leaves the loop. -/
def transactWithRetry (isDeadlock : ε → Bool) (f : σ → γ → Except ε σ × γ) (tries : Int)
    (db : Nat → Backend ε) (S : σ) (c : γ) : Call ε γ × σ × List Event :=
  Call.run isDeadlock f tries db (tries.toNat + 1) (Call.start tries c) S

/-! ## One attempt -/

section Transact

variable {f : σ → γ → Except ε σ × γ} {db : Backend ε} {S : σ} {c : γ}

/-- A failed attempt leaves the store as it was. -/
theorem transact_store_of_error {e : ε} (h : (transact f db S c).1 = some e) :
    (transact f db S c).2.1 = S := by
  obtain ⟨_ | b, _ | x, _ | m⟩ := db <;> rcases hf : f S c with ⟨_ | S', c'⟩ <;> simp_all [transact]

/-- The error an attempt returns is that of `Begin`, of the closure's statements, of the
closure or of `COMMIT`, as it came. -/
theorem transact_error {e : ε} (h : (transact f db S c).1 = some e) :
    db.begin = some e ∨ db.exec = some e ∨ (f S c).1 = .error e ∨ db.commit = some e := by
  obtain ⟨_ | b, _ | x, _ | m⟩ := db <;> rcases hf : f S c with ⟨_ | S', c'⟩ <;> simp_all [transact]

end Transact

/-! ## The loop -/

/-- The attempts from index `i` on as `Transact` would make them if the loop did not stop,
each on what the one before left: what it returned, and the store and captured variables
after it. -/
def unrolled (f : σ → γ → Except ε σ × γ) (db : Nat → Backend ε) : Nat → Nat → σ → γ →
    List (Option ε × σ × γ)
  | _, 0, _, _ => []
  | i, n + 1, S, c =>
      let r := transact f (db i) S c
      r :: unrolled f db (i + 1) n r.2.1 r.2.2

/-- Attempts `i` to `i + m - 1` with a sleep after each one but the last. -/
def schedule (i : Nat) : Nat → List Event
  | 0 => []
  | 1 => [.attempt i]
  | m + 2 => .attempt i :: .sleep i :: schedule (i + 1) (m + 1)

section Loop

variable (isDeadlock : ε → Bool) (f : σ → γ → Except ε σ × γ) (db : Nat → Backend ε)
  (tries : Int) {i n : Nat} {err : Option ε} {c c' : γ} {S S' : σ}

theorem run_done (n : Nat) (r : Except (TxErr ε) Unit) (c : γ) (S : σ) :
    Call.run isDeadlock f tries db n (.done r c) S = (.done r c, S, []) := by
  cases n <;> rfl

/-- Past the budget the loop returns `TxError` with the last error. -/
theorem run_past (h : ¬(i : Int) < tries) :
    Call.run isDeadlock f tries db (n + 1) (.loop i err c) S =
      (.done (.error (.txError err tries)) c, S, []) := by
  simp only [Call.run, Call.step, if_neg h, run_done, List.append_nil]

/-- A committed attempt returns nil. -/
theorem run_commit (h : (i : Int) < tries) (hx : transact f (db i) S c = (none, S', c')) :
    Call.run isDeadlock f tries db (n + 1) (.loop i err c) S = (.done (.ok ()) c', S', [.attempt i]) := by
  simp only [Call.run, Call.step, if_pos h, hx, run_done, List.append_nil]

/-- An error that is not deadlock-class is returned as it came. -/
theorem run_fail {e : ε} (h : (i : Int) < tries) (hx : transact f (db i) S c = (some e, S', c'))
    (hd : isDeadlock e = false) :
    Call.run isDeadlock f tries db (n + 1) (.loop i err c) S =
      (.done (.error (.cause e)) c', S', [.attempt i]) := by
  simp only [Call.run, Call.step, if_pos h, hx, hd, run_done, List.append_nil, Bool.false_eq_true,
    if_false]

/-- After a deadlock-class error the loop sleeps, unless at the last index, and goes on. -/
theorem run_retry {e : ε} (h : (i : Int) < tries) (hx : transact f (db i) S c = (some e, S', c'))
    (hd : isDeadlock e = true) :
    Call.run isDeadlock f tries db (n + 1) (.loop i err c) S =
      ((Call.run isDeadlock f tries db n (.loop (i + 1) (some e) c') S').1,
        (Call.run isDeadlock f tries db n (.loop (i + 1) (some e) c') S').2.1,
        (.attempt i :: if (i : Int) ≠ tries - 1 then [.sleep i] else []) ++
          (Call.run isDeadlock f tries db n (.loop (i + 1) (some e) c') S').2.2) := by
  simp only [Call.run, Call.step, if_pos h, hx, hd, if_true]

/-- What a run from index `i` with `k` indices left does: it ends after `m ≤ k` attempts made
as `schedule i m` lists them, all but the last with a deadlock-class error, and the last one
decides the result and the store; with no index left it returns `TxError{err, tries}`. -/
theorem run_loop :
    ∀ (k i : Nat) (err : Option ε) (c : γ) (S : σ) (n : Nat),
      (i + k : Int) = tries → k < n → ∃ m r c', m ≤ k ∧
      (Call.run isDeadlock f tries db n (.loop i err c) S).1 = .done r c' ∧
      (Call.run isDeadlock f tries db n (.loop i err c) S).2.2 = schedule i m ∧
      (k = 0 → m = 0 ∧ r = .error (.txError err tries) ∧
        (Call.run isDeadlock f tries db n (.loop i err c) S).2.1 = S) ∧
      (∀ j, j + 1 < m → ∃ e x, (unrolled f db i k S c)[j]? = some (some e, x) ∧
        isDeadlock e = true) ∧
      (0 < k → 0 < m ∧ ∃ x, (unrolled f db i k S c)[m - 1]? = some x ∧
        (x.1 = none → r = .ok () ∧
          (Call.run isDeadlock f tries db n (.loop i err c) S).2.1 = x.2.1) ∧
        (∀ e, x.1 = some e → isDeadlock e = false → r = .error (.cause e) ∧
          (Call.run isDeadlock f tries db n (.loop i err c) S).2.1 = S) ∧
        (∀ e, x.1 = some e → isDeadlock e = true → m = k ∧ r = .error (.txError (some e) tries) ∧
          (Call.run isDeadlock f tries db n (.loop i err c) S).2.1 = S))
  | 0, i, err, c, S, n + 1, hk, _ => by
      rw [run_past isDeadlock f db tries (by omega)]
      exact ⟨0, _, c, le_rfl, rfl, rfl, fun _ => ⟨rfl, rfl, rfl⟩, fun _ h => absurd h (by omega),
        fun h => absurd h (by omega)⟩
  | k + 1, i, err, c, S, n + 1, hk, hn => by
      have hlt : (i : Int) < tries := by omega
      rcases hx : transact f (db i) S c with ⟨o, S', c'⟩
      have hu : unrolled f db i (k + 1) S c = (o, S', c') :: unrolled f db (i + 1) k S' c' := by
        rw [unrolled, hx]
      rw [hu]
      cases o with
      | none =>
          rw [run_commit isDeadlock f db tries hlt hx]
          exact ⟨1, _, c', by omega, rfl, rfl, fun h => absurd h (by omega),
            fun j hj => absurd hj (by omega), fun _ => ⟨by omega, (none, S', c'),
              List.getElem?_cons_zero, fun _ => ⟨rfl, rfl⟩, fun e h => absurd h (by simp),
              fun e h => absurd h (by simp)⟩⟩
      | some e =>
          have hS : S' = S := by
            have := transact_store_of_error (by rw [hx] : (transact f (db i) S c).1 = some e)
            rwa [hx] at this
          subst hS
          cases hd : isDeadlock e with
          | false =>
              rw [run_fail isDeadlock f db tries hlt hx hd]
              refine ⟨1, _, c', by omega, rfl, rfl, fun h => absurd h (by omega),
                fun j hj => absurd hj (by omega), fun _ => ⟨by omega, (some e, S', c'),
                  List.getElem?_cons_zero, fun h => absurd h (by simp), fun e' h _ => ?_,
                  fun e' h h' => ?_⟩⟩
              · cases Option.some.inj h; exact ⟨rfl, rfl⟩
              · cases Option.some.inj h; rw [hd] at h'; cases h'
          | true =>
              rw [run_retry isDeadlock f db tries hlt hx hd]
              obtain ⟨m, r, c'', hm, hdone, hev, h0, hdl, hlast⟩ :=
                run_loop k (i + 1) (some e) c' S' n (by push_cast; omega) (by omega)
              rcases Nat.eq_zero_or_pos k with rfl | hk0
              · obtain ⟨rfl, rfl, hst⟩ := h0 rfl
                refine ⟨1, _, c'', by omega, hdone, ?_, fun h => absurd h (by omega),
                  fun j hj => absurd hj (by omega), fun _ => ⟨by omega, (some e, S', c'),
                    List.getElem?_cons_zero, fun h => absurd h (by simp), fun e' h h' => ?_,
                    fun e' h _ => ?_⟩⟩
                · rw [hev, if_neg (by push_cast at hk ⊢; omega)]; rfl
                · cases Option.some.inj h; rw [hd] at h'; cases h'
                · cases Option.some.inj h; exact ⟨rfl, rfl, hst⟩
              · obtain ⟨hm0, x, hx', hok, herr, hdl'⟩ := hlast hk0
                obtain ⟨m', rfl⟩ : ∃ m', m = m' + 1 := ⟨m - 1, by omega⟩
                refine ⟨m' + 2, r, c'', by omega, hdone, ?_, fun h => absurd h (by omega),
                  fun j hj => ?_, fun _ => ⟨by omega, x, by
                    simpa only [Nat.add_sub_cancel, Nat.reduceSubDiff, List.getElem?_cons_succ]
                      using hx', hok, herr, fun e' h h' => ?_⟩⟩
                · rw [hev, if_pos (by push_cast at hk ⊢; omega)]; rfl
                · rcases j with _ | j
                  · exact ⟨e, (S', c'), List.getElem?_cons_zero, hd⟩
                  · simpa only [List.getElem?_cons_succ] using hdl j (by omega)
                · obtain ⟨rfl, h2⟩ := hdl' e' h h'; exact ⟨rfl, h2⟩

/-- What every pass of the loop keeps, whatever the database answers, a whole run keeps. -/
theorem run_inv (P : Call ε γ × σ → Prop)
    (hstep : ∀ k S b, P (k, S) → P ((k.step isDeadlock f tries b S).1, (k.step isDeadlock f tries b S).2.1)) :
    ∀ n k S, P (k, S) →
      P ((Call.run isDeadlock f tries db n k S).1, (Call.run isDeadlock f tries db n k S).2.1)
  | 0, _, _, h => h
  | _ + 1, .done _ _, _, h => h
  | n + 1, .loop i _ _, S, h => run_inv P hstep n _ _ (hstep _ S (db i) h)

/-- `TransactWithRetry` returns, whatever the budget and the answers. -/
theorem transactWithRetry_returns (S : σ) (c : γ) :
    ∃ r c', (transactWithRetry isDeadlock f tries db S c).1 = .done r c' := by
  unfold transactWithRetry Call.start
  split_ifs with h0
  · exact ⟨_, _, congrArg Prod.fst (run_done isDeadlock f db tries _ _ _ _)⟩
  · rcases le_or_lt tries 0 with hneg | hpos
    · exact ⟨_, _, congrArg Prod.fst (run_past isDeadlock f db tries (by omega))⟩
    · obtain ⟨_, r, c', -, hdone, -⟩ := run_loop isDeadlock f db tries tries.toNat 0 none c S
        (tries.toNat + 1) (by omega) (by omega)
      exact ⟨r, c', hdone⟩

end Loop

/-- `TransactWithRetry` for every budget `tries` and every sequence of answers of the
database. It returns after `m ≤ max(tries, 0)` attempts, none when `tries ≤ 0`, with a sleep
between each two attempts and none after the last; every attempt but the last failed with a
deadlock-class error, each on the store as it was. The last attempt decides: nil when it
committed, with the store its closure wrote; its own error, verbatim, when that is not
deadlock-class; `TxError{its error, tries}` when it is, which happens only at attempt
`tries`. Every error an attempt returns is that of `Begin`, of the closure's statements, of the
closure or of `COMMIT`. A budget of zero gives `errors.New("database: tries must be 1 or
greater")`, a negative one `TxError{nil, tries}`, and the store unchanged. -/
theorem transactWithRetry_contract (isDeadlock : ε → Bool) (f : σ → γ → Except ε σ × γ)
    (tries : Int) (db : Nat → Backend ε) (S : σ) (c : γ) :
    (∀ b S c e, (transact f b S c).1 = some e →
      b.begin = some e ∨ b.exec = some e ∨ (f S c).1 = .error e ∨ b.commit = some e) ∧
    ∃ m r c', m ≤ tries.toNat ∧ (m = 0 ↔ tries ≤ 0) ∧
      (transactWithRetry isDeadlock f tries db S c).1 = .done r c' ∧
      (transactWithRetry isDeadlock f tries db S c).2.2 = schedule 0 m ∧
      (tries = 0 → r = .error (.new "database: tries must be 1 or greater") ∧
        (transactWithRetry isDeadlock f tries db S c).2.1 = S) ∧
      (tries < 0 → r = .error (.txError none tries) ∧
        (transactWithRetry isDeadlock f tries db S c).2.1 = S) ∧
      (∀ j, j + 1 < m → ∃ e x, (unrolled f db 0 tries.toNat S c)[j]? = some (some e, x) ∧
        isDeadlock e = true) ∧
      (0 < m → ∃ x, (unrolled f db 0 tries.toNat S c)[m - 1]? = some x ∧
        (x.1 = none → r = .ok () ∧ (transactWithRetry isDeadlock f tries db S c).2.1 = x.2.1) ∧
        (∀ e, x.1 = some e → isDeadlock e = false → r = .error (.cause e) ∧
          (transactWithRetry isDeadlock f tries db S c).2.1 = S) ∧
        (∀ e, x.1 = some e → isDeadlock e = true → m = tries.toNat ∧
          r = .error (.txError (some e) tries) ∧
          (transactWithRetry isDeadlock f tries db S c).2.1 = S)) := by
  refine ⟨fun b S c e h => transact_error h, ?_⟩
  rcases lt_trichotomy tries 0 with hneg | rfl | hpos
  · have ht : tries.toNat = 0 := by omega
    refine ⟨0, .error (.txError none tries), c, by omega, ⟨fun _ => hneg.le, fun _ => rfl⟩, ?_, ?_,
      fun h => absurd h hneg.ne, fun _ => ⟨rfl, ?_⟩, fun j hj => absurd hj (by omega),
      fun h => absurd h (by omega)⟩ <;>
    simp only [transactWithRetry, Call.start, if_neg hneg.ne, ht, Call.run, Call.step,
      if_neg (show ¬((0 : Nat) : Int) < tries by omega), List.append_nil]
    rfl
  · refine ⟨0, _, c, le_rfl, ⟨fun _ => le_rfl, fun _ => rfl⟩, rfl, rfl, fun _ => ⟨rfl, rfl⟩,
      fun h => absurd h (lt_irrefl 0), fun j hj => absurd hj (by omega),
      fun h => absurd h (lt_irrefl 0)⟩
  · obtain ⟨m, r, c', hm, hdone, hev, -, hdl, hlast⟩ :=
      run_loop isDeadlock f db tries tries.toNat 0 none c S (tries.toNat + 1) (by omega) (by omega)
    have hstart : Call.start tries c = (.loop 0 none c : Call ε γ) := if_neg hpos.ne'
    obtain ⟨hm0, hlast⟩ := hlast (by omega)
    refine ⟨m, r, c', hm, ⟨fun h => absurd h (by omega), fun h => absurd h (by omega)⟩, ?_, ?_,
      fun h => absurd h hpos.ne', fun h => absurd h (by omega), hdl, fun _ => ?_⟩ <;>
    rw [transactWithRetry, hstart]
    · exact hdone
    · exact hev
    · exact hlast

/-! ## Calls at once -/

/-- The loop index of a call; `0` for one that returned. -/
def Call.index : Call ε γ → Nat
  | .loop i _ _ => i
  | .done _ _ => 0

/-- The closure's captured variables as a call holds them. -/
def Call.captured : Call ε γ → γ
  | .loop _ _ c => c
  | .done _ c => c

@[simp] theorem Call.captured_start (tries : Int) (c : γ) :
    (Call.start tries c : Call ε γ).captured = c := by
  unfold Call.start
  split_ifs <;> rfl

/-- Calls of `TransactWithRetry(f)` in flight at once on one store. `order` names, one after
another, the call that runs the next pass of its loop; attempt `i` of call `k` gets the answers
`db k i`. A name with no call is skipped. -/
def interleave (isDeadlock : ε → Bool) (f : σ → γ → Except ε σ × γ) (tries : Int)
    (db : Nat → Nat → Backend ε) : List Nat → List (Call ε γ) → σ → List (Call ε γ) × σ
  | [], calls, S => (calls, S)
  | k :: order, calls, S =>
      match calls[k]? with
      | none => interleave isDeadlock f tries db order calls S
      | some call =>
          let s := call.step isDeadlock f tries (db k call.index) S
          interleave isDeadlock f tries db order (calls.set k s.1) s.2.1

/-- What holds of the calls and the store before every pass of every call holds after
every interleaving. -/
theorem interleave_inv {isDeadlock : ε → Bool} {f : σ → γ → Except ε σ × γ} {tries : Int}
    {db : Nat → Nat → Backend ε} (P : List (Call ε γ) → σ → Prop)
    (hstep : ∀ calls S k call, calls[k]? = some call → P calls S →
      P (calls.set k (call.step isDeadlock f tries (db k call.index) S).1)
        (call.step isDeadlock f tries (db k call.index) S).2.1) :
    ∀ order calls S, P calls S →
      P (interleave isDeadlock f tries db order calls S).1 (interleave isDeadlock f tries db order calls S).2
  | [], _, _, h => h
  | k :: order, calls, S, h => by
      unfold interleave
      split
      · exact interleave_inv P hstep order calls S h
      · next call hk => exact interleave_inv P hstep order _ _ (hstep calls S k call hk h)

end Database

end Cryptopuff
