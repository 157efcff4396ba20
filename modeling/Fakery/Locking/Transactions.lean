import Fakery.Bots.Bodies
import Fakery.Concurrent.LockOrder

/-! The service operations over a table of row locks: FOR UPDATE on a bot row, FOR UPDATE on the
subscription rows, and the key-share lock that the insertion of a child row takes on its bot. -/
namespace Fakery.Locking
open Fakery.Bots Fakery.Concurrent

inductive Lock where
  | forUpdate (b : ℕ)
  | keyShare (b : ℕ)
  | subscription (j : ℕ)
deriving DecidableEq

def Lock.conflict : Lock → Lock → Bool
  | .forUpdate b, .forUpdate b' => b = b'
  | .forUpdate b, .keyShare b' => b = b'
  | .keyShare b, .forUpdate b' => b = b'
  | .subscription j, .subscription j' => j = j'
  | _, _ => false

/-- Bot rows come before the subscription rows, which come in the order of their scan. -/
def Lock.rank : Lock → ℕ
  | .subscription j => j + 1
  | _ => 0

def rowLocks : Hierarchy Lock where
  conflict := Lock.conflict
  rank := Lock.rank
  symm {h r} hc := by
    cases h <;> cases r <;> first | exact decide_eq_true (of_decide_eq_true hc).symm | cases hc
  rank_eq {h r} hc := by
    cases h <;> cases r <;> first | rfl | cases hc | exact congrArg Nat.succ (of_decide_eq_true hc)

abbrev Locks := LockTable Lock

/-- The bot row that a statement locks, and how. -/
def rowLock : Stmt → Option Lock
  | .selectForUpdate b => some (.forUpdate b)
  | .insertSegment segment => some (.keyShare segment.botRunId)
  | .insertNote note => some (.keyShare note.botRunId)
  | _ => none

/-- A statement that locks the subscription rows. -/
def emits : Stmt → Bool
  | .lockSubscriptions => true
  | _ => false

def ends : Stmt → Bool
  | .commit | .rollback => true
  | _ => false

/-- The locks that a statement takes one after the other when there are `n` subscriptions. -/
def requests (n : ℕ) (i : Stmt) : List Lock :=
  if emits i then (List.range n).map .subscription else (rowLock i).toList

/-- A request answers whether the lock was free; if not, the transaction awaits it. -/
inductive Call where
  | request (r : Lock)
  | await (r : Lock)
  | stmt (i : Stmt)

abbrev Reply : Call → Type
  | .request _ => Bool
  | .await _ => Unit
  | .stmt i => Answer i

def acquire : List Lock → Prog Call Reply Unit
  | [] => .done ()
  | r :: rs => .call (.request r) fun granted =>
    if granted then acquire rs else .call (.await r) fun _ => acquire rs

/-- A program whose statements take their locks first. -/
def locked {α : Type} (n : ℕ) : Prog Stmt Answer α → Prog Call Reply α
  | .done a => .done a
  | .call i k => acquire (requests n i) >>= fun _ => .call (.stmt i) fun a => locked n (k a)

/-- What the database answers to a statement is left open. -/
def exec (t : ℕ) : (i : Call) → ((i : Stmt) → Answer i) → Locks → Option (Locks × Reply i)
  | .request r, _, s =>
    if s.free rowLocks t r then some (s.grant t r, true) else some (s.enqueue t r, false)
  | .await r, _, s => if s.free rowLocks t r then some (s.grant t r, ()) else none
  | .stmt i, database, s => some (if ends i then s.release t else s, database i)

/-- A transaction that is cut off is rolled back. -/
def transactions (n : ℕ) : Machine Call Reply Op Locks ((i : Stmt) → Answer i) Empty where
  prog k := locked n k.prog
  begin _ _ s := some s
  exec := exec
  kill t s := s.release t
  env e _ := e.elim

/-- Takes no row lock before `U` and none after another lock. -/
def RowFirst {α : Type} : Prog Stmt Answer α → Prop
  | .done _ => True
  | .call i k => if (rowLock i).isSome || emits i
      then ∀ a, (k a).Uses fun j => rowLock j = none
      else ∀ a, RowFirst (k a)

end Fakery.Locking
