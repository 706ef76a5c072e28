import Mathlib.Tactic.Common

/-!
# Transactions on one connection

What is on disk, and what the open transaction sees instead.  A statement
outside a transaction is one of its own.  Until it commits, a transaction
changes nothing that a new connection would find.
-/

namespace Sql

/-- A connection; `pending` is what the open transaction has made of the
database. -/
structure Conn (δ : Type) where
  durable : δ
  pending : Option δ

namespace Conn

variable {δ : Type}

/-- A new connection, after a crash or otherwise. -/
def opened (d : δ) : Conn δ := ⟨d, none⟩

/-- What a statement finds. -/
def seen (c : Conn δ) : δ := c.pending.getD c.durable

def start (c : Conn δ) : Conn δ := ⟨c.durable, some c.durable⟩

/-- A statement that worked. -/
def write (c : Conn δ) (d : δ) : Conn δ :=
  match c.pending with
  | none => ⟨d, none⟩
  | some _ => ⟨c.durable, some d⟩

/-- A statement that failed inside a transaction, which is left in any state or
has been rolled back with it. -/
def abort (c : Conn δ) (left : Option δ) : Conn δ := ⟨c.durable, left⟩

def commit (c : Conn δ) : Conn δ := ⟨c.seen, none⟩

def rollback (c : Conn δ) : Conn δ := ⟨c.durable, none⟩

@[simp] theorem seen_opened (d : δ) : (opened d).seen = d := rfl

@[simp] theorem seen_start (c : Conn δ) : c.start.seen = c.durable := rfl

@[simp] theorem durable_start (c : Conn δ) : c.start.durable = c.durable := rfl

@[simp] theorem durable_abort (c : Conn δ) (left : Option δ) :
    (c.abort left).durable = c.durable := rfl

@[simp] theorem durable_commit (c : Conn δ) : c.commit.durable = c.seen := rfl

@[simp] theorem durable_rollback (c : Conn δ) : c.rollback.durable = c.durable := rfl

theorem seen_of_none {c : Conn δ} (h : c.pending = none) : c.seen = c.durable := by
  rw [seen, h, Option.getD_none]

theorem seen_of_some {c : Conn δ} {d : δ} (h : c.pending = some d) : c.seen = d := by
  rw [seen, h, Option.getD_some]

/-- In a transaction nothing reaches the disk. -/
theorem write_of_some {c : Conn δ} {d : δ} (h : c.pending = some d) (d' : δ) :
    c.write d' = ⟨c.durable, some d'⟩ := by
  rw [write, h]

theorem write_of_none {c : Conn δ} (h : c.pending = none) (d : δ) : c.write d = ⟨d, none⟩ := by
  rw [write, h]

end Conn

end Sql
