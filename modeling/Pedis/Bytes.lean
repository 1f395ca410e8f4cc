import Mathlib.Data.List.Lex
import Mathlib.Order.Lattice

/-!
# Byte strings

The `bytes` of the store: keys of the sorted set, keys and values of table blocks. Bytes are
unsigned (`memcmp` compares them as `unsigned char`), and byte strings are ordered
lexicographically with a proper prefix below its extensions: the order the sorted set's
dictionary is kept in (spec §4.6, "ordered by lexicographic bytewise key") and the default
bytewise comparator of the tables (spec §6).
-/

namespace Pedis

/-- A byte string, `bytes` / `managed_bytes` in the source. -/
def Bytes := List UInt8

instance : DecidableEq Bytes := inferInstanceAs (DecidableEq (List UInt8))

/-- Lexicographic order on unsigned bytes, a proper prefix first. -/
instance : LinearOrder Bytes :=
  LinearOrder.lift' (fun b : List UInt8 => b.map UInt8.toNat)
    (List.map_injective_iff.2 fun _ _ h => UInt8.toNat.inj h)

theorem lex_cons_cons_iff {α : Type} {r : α → α → Prop} {x y : α} {a b : List α} :
    List.Lex r (x :: a) (y :: b) ↔ r x y ∨ x = y ∧ List.Lex r a b := by
  constructor
  · intro h
    cases h with
    | cons h => exact Or.inr ⟨rfl, h⟩
    | rel h => exact Or.inl h
  · rintro (h | ⟨rfl, h⟩)
    exacts [List.Lex.rel h, List.Lex.cons h]

namespace Bytes

theorem lt_iff_lex {a b : Bytes} :
    a < b ↔ List.Lex (· < ·) (List.map UInt8.toNat a) (List.map UInt8.toNat b) := Iff.rfl

end Bytes

end Pedis
