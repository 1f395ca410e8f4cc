import Pedis.SortedSet.Basic
import Mathlib.Algebra.Group.Nat.Basic
import Mathlib.Algebra.Group.Int

/-!
# `sset_entry::compare`: the order of the dictionary

`_dict` is a `boost::intrusive::set` ordered by `sset_entry::compare`, whose key overloads all
call `compare_impl(d1, s1, d2, s2)`: `memcmp` over the common length, a tie broken by length.
`len` is an `int`: `std::min(s1, s2)` is narrowed to `int` and passed back to `memcmp` as a
`size_t`.

Below `2^31` bytes that round trip is the identity and `compare_impl` is the lexicographic order
on unsigned bytes of `Pedis.Bytes` (`compareImpl_eq_lex`), the order in which the model keeps
`_dict` (`Inv.dict_sorted`). So it is a strict total order, and the entry/entry, bytes/entry and
entry/bytes overloads agree, which is what the heterogeneous `_dict.find(key, compare())` and
`_dict.insert` need to see one key once (`compare_impl_strict_total_order`).

The overloads on a `double` score are not used by `_dict` and are left out.
-/

namespace Pedis.SortedSet

/-- Modelled from the C standard (`memcmp` is not among the sources): the sign of the first
    difference among the first `n` bytes, compared as `unsigned char`. Reading past either buffer
    is undefined. -/
def memcmp : List UInt8 → List UInt8 → Nat → Option Int
  | _, _, 0 => some 0
  | a :: as, b :: bs, n + 1 => if a < b then some (-1) else if b < a then some 1 else memcmp as bs n
  | _, _, _ + 1 => none

/-- A `size_t` narrowed to `int`, two's complement. -/
def toInt32 (n : Nat) : Int := if n % 2 ^ 32 < 2 ^ 31 then n % 2 ^ 32 else n % 2 ^ 32 - 2 ^ 32

/-- An `int` passed as a `size_t`. -/
def toSizeT (n : Int) : Nat := (n % 2 ^ 64).toNat

/-- `sset_entry::compare::compare_impl(d1, s1, d2, s2)`. -/
def compareImpl (d1 : List UInt8) (s1 : Nat) (d2 : List UInt8) (s2 : Nat) : Option Bool :=
  let len := toInt32 (min s1 s2)
  (memcmp d1 d2 (toSizeT len)).map fun r =>
    if r = 0 then (if s1 < s2 then true else if s1 > s2 then false else decide (r < 0))
    else decide (r < 0)

namespace SsetEntry

variable {Score : Type}

/-- `compare::operator()(const sset_entry& l, const sset_entry& r)`. -/
def compare (l r : SsetEntry Score) : Option Bool :=
  compareImpl l.key l.key.length r.key r.key.length

/-- `compare::operator()(const bytes& k, const sset_entry& e)`. -/
def compareKeyEntry (k : Bytes) (e : SsetEntry Score) : Option Bool :=
  compareImpl k k.length e.key e.key.length

/-- `compare::operator()(const sset_entry& e, const bytes& k)`. -/
def compareEntryKey (e : SsetEntry Score) (k : Bytes) : Option Bool :=
  compareImpl e.key e.key.length k k.length

end SsetEntry

/-! ## `compare_impl` is the lexicographic order -/

/-- Below `2^31` the `int` round trip of `len` is the identity. -/
theorem toSizeT_toInt32 {n : Nat} (h : n < 2 ^ 31) : toSizeT (toInt32 n) = n := by
  have h32 : n % 2 ^ 32 = n := Nat.mod_eq_of_lt (by omega)
  simp only [toSizeT, toInt32, h32, if_pos h]
  omega

theorem compareImpl_eq_of_lt {d1 d2 : List UInt8} {s1 s2 : Nat} (h : min s1 s2 < 2 ^ 31) :
    compareImpl d1 s1 d2 s2 = (memcmp d1 d2 (min s1 s2)).map fun r =>
      if r = 0 then (if s1 < s2 then true else if s1 > s2 then false else decide (r < 0))
      else decide (r < 0) := by
  rw [compareImpl, toSizeT_toInt32 h]

/-- `compare_impl` on two byte strings and their lengths decides the lexicographic order on their
    unsigned bytes, a proper prefix first. -/
theorem compareImpl_eq_lex : ∀ a b : List UInt8, min a.length b.length < 2 ^ 31 →
    compareImpl a a.length b b.length =
      some (decide (List.Lex (· < ·) (a.map UInt8.toNat) (b.map UInt8.toNat)))
  | [], b, h => by
    rw [compareImpl_eq_of_lt h]
    cases b <;> simp [memcmp, List.Lex.nil, List.Lex.not_nil_right]
  | x :: a, [], h => by
    rw [compareImpl_eq_of_lt h]
    simp [memcmp, List.Lex.not_nil_right]
  | x :: a, y :: b, h => by
    have hm : min a.length b.length < 2 ^ 31 := by
      rw [List.length_cons, List.length_cons, Nat.add_min_add_right] at h; omega
    rw [compareImpl_eq_of_lt h, List.length_cons, List.length_cons, Nat.add_min_add_right, memcmp,
      List.map_cons, List.map_cons]
    by_cases hxy : x < y
    · simp [hxy, lex_cons_cons_iff, show x.toNat < y.toNat from hxy]
    by_cases hyx : y < x
    · have hne : x.toNat ≠ y.toNat := by have := show y.toNat < x.toNat from hyx; omega
      simp [hxy, hyx, lex_cons_cons_iff, show ¬ x.toNat < y.toNat from hxy, hne]
    -- equal bytes: the rest decides, with lengths one less
    have hx : x = y := UInt8.toNat.inj (by
      have := show ¬ x.toNat < y.toNat from hxy; have := show ¬ y.toNat < x.toNat from hyx; omega)
    subst hx
    have ih := compareImpl_eq_lex a b hm
    rw [compareImpl_eq_of_lt hm] at ih
    simpa [hxy, lex_cons_cons_iff] using ih

/-- For keys below `2^31` bytes, `compare_impl` is `<` on `Bytes`: a strict total order, and the
    three key overloads of `sset_entry::compare` agree. -/
theorem compare_impl_strict_total_order (a b c : Bytes) (ha : a.length < 2 ^ 31)
    (hb : b.length < 2 ^ 31) (hc : c.length < 2 ^ 31) :
    compareImpl a a.length b b.length = some (decide (a < b)) ∧
      compareImpl a a.length a a.length = some false ∧
      (compareImpl a a.length b b.length = some true → compareImpl b b.length c c.length = some true →
        compareImpl a a.length c c.length = some true) ∧
      (a ≠ b → ∃ x, compareImpl a a.length b b.length = some x ∧
        compareImpl b b.length a a.length = some (!x)) ∧
      ∀ {Score : Type} (v : Score) (e : SsetEntry Score),
        SsetEntry.compareKeyEntry a e = SsetEntry.compare ⟨a, v⟩ e ∧
          SsetEntry.compareEntryKey e a = SsetEntry.compare e ⟨a, v⟩ := by
  have hlt : ∀ u w : Bytes, u.length < 2 ^ 31 → w.length < 2 ^ 31 →
      compareImpl u u.length w w.length = some (decide (u < w)) := fun u w hu _ =>
    (compareImpl_eq_lex u w (lt_of_le_of_lt (min_le_left _ _) hu)).trans
      (congrArg some (decide_eq_decide.2 Bytes.lt_iff_lex.symm))
  refine ⟨hlt a b ha hb, by simp [hlt a a ha ha], fun hab hbc => ?_, fun hne => ?_,
    fun _ _ => ⟨rfl, rfl⟩⟩
  · simp only [hlt a b ha hb, hlt b c hb hc, hlt a c ha hc, Option.some.injEq,
      decide_eq_true_eq] at hab hbc ⊢
    exact hab.trans hbc
  · refine ⟨_, hlt a b ha hb, ?_⟩
    rw [hlt b a hb ha]
    rcases lt_or_gt_of_ne hne with h | h
    · simp [h, h.not_lt]
    · simp [h, h.not_lt]

/-- `"a"` is below its extension `"a\x00"`, which is below `"\x80"`: bytes compare unsigned. -/
theorem compare_impl_strict_total_order_at_a_a0_80 :
    (fun a b c : Bytes => a.length < 2 ^ 31 ∧ b.length < 2 ^ 31 ∧ c.length < 2 ^ 31 ∧
      (compareImpl a a.length b b.length = some (decide (a < b)) ∧
        compareImpl a a.length a a.length = some false ∧
        (compareImpl a a.length b b.length = some true →
          compareImpl b b.length c c.length = some true →
          compareImpl a a.length c c.length = some true) ∧
        (a ≠ b → ∃ x, compareImpl a a.length b b.length = some x ∧
          compareImpl b b.length a a.length = some (!x)) ∧
        ∀ {Score : Type} (v : Score) (e : SsetEntry Score),
          SsetEntry.compareKeyEntry a e = SsetEntry.compare ⟨a, v⟩ e ∧
            SsetEntry.compareEntryKey e a = SsetEntry.compare e ⟨a, v⟩))
      [97] [97, 0] [128] :=
  ⟨by decide, by decide, by decide,
    compare_impl_strict_total_order [97] [97, 0] [128] (by decide) (by decide) (by decide)⟩

end Pedis.SortedSet
