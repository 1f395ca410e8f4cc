import Pedis.SortedSet.Invariant
import Mathlib.Data.Finset.Card

/-!
# `sset_lsa` refines a finite map from keys to scores

The member map `M(s) = s.score` of a state is what `score(key)` returns. Every mutating
operation, on a state satisfying `Inv`, keeps `Inv` and acts on `M(s)` as the map operation the
spec (§4.6) names, returning what that operation returns.

## Layers
- `ScoreMap` and its operations: the abstract model.
- `ActsAt`: a loop body that keeps `Inv` and changes the map at one key only;
  `ActsAt.foldl` runs it over a member map, whose keys are distinct.
- One `ActsAt` lemma per bulk loop body, from the link/relink/unlink transitions.
- `sset_lsa_refines_score_map`: every operation at once.
-/

namespace Pedis.SortedSet

/-- The sorted set as the spec sees it: key ↦ score. -/
abbrev ScoreMap (Score : Type) := Bytes → Option Score

namespace ScoreMap

variable {Score : Type} (M : ScoreMap Score)

/-- `M ∪ {(k, v) ∈ ms | k ∉ dom M}`. -/
def addAbsent (ms : List (Bytes × Score)) : ScoreMap Score := fun k => (M k).or (ms.lookup k)

/-- `M` overridden by `ms` on `dom M ∩ dom ms`. -/
def overrideOnDom (ms : List (Bytes × Score)) : ScoreMap Score :=
  fun k => (M k).map fun v => (ms.lookup k).getD v

/-- `M` overridden by `ms`. -/
def override (ms : List (Bytes × Score)) : ScoreMap Score := fun k => (ms.lookup k).or (M k)

/-- `M` without the keys `ks`. -/
def eraseAll (ks : List Bytes) : ScoreMap Score := fun k => if k ∈ ks then none else M k

end ScoreMap

/-- `lookup` in a list of pairs finds the first pair with that key. -/
theorem lookup_eq_find? {β : Type} (k : Bytes) :
    ∀ l : List (Bytes × β), l.lookup k = (l.find? fun a => a.1 == k).map Prod.snd
  | [] => rfl
  | (k', v) :: l => by
    by_cases hk : k = k'
    · subst hk; simp
    · have hb : (k' == k) = false := beq_eq_false_iff_ne.2 (Ne.symm hk)
      simp [List.lookup_cons, beq_eq_false_iff_ne.2 hk, hb, lookup_eq_find? k l]

namespace SsetLsa

variable {Score : Type} [LinearOrder Score]

omit [LinearOrder Score] in
theorem score_eq_none_iff_find {s : SsetLsa Score} {k : Bytes} :
    s.score k = none ↔ s.find k = none := Option.map_eq_none'

/-- Under `Inv`, `size()` is the number of keys of the member map. -/
theorem Inv.size_eq_card_dom {s : SsetLsa Score} (h : s.Inv) :
    s.size = ((s.dict.map s.keyOf).toFinset).card ∧
      ∀ k, k ∈ (s.dict.map s.keyOf).toFinset ↔ (s.score k).isSome := by
  refine ⟨?_, fun k => ?_⟩
  · rw [h.size_eq, List.toFinset_card_of_nodup, List.length_map]
    exact List.pairwise_map.2 (h.dict_sorted.imp ne_of_lt)
  · rw [List.mem_toFinset, List.mem_map, Option.isSome_iff_exists]
    simp only [score_eq_some_iff h]
    exact ⟨fun ⟨p, hp, hk⟩ => ⟨_, p, hp, hk, rfl⟩, fun ⟨_, p, hp, hk, _⟩ => ⟨p, hp, hk⟩⟩

/-! ## Loop bodies acting at one key -/

section Loop

variable {α : Type} (step : SsetLsa Score × Nat → α → SsetLsa Score × Nat) (key : α → Bytes)
  (φ : α → Option Score → Option Score) (cnt grow shrink : α → Option Score → Bool)

/-- A loop body acting on the member map at `key a` only: it keeps `Inv`, the score at `key a`
    becomes `φ a` of the old one, the counter goes up by `cnt a`, and the set grows by `grow a`
    and shrinks by `shrink a`, each read off the old score at `key a`. -/
structure ActsAt : Prop where
  inv : ∀ s c a, s.Inv → (step (s, c) a).1.Inv
  score : ∀ s c a, s.Inv → ∀ k,
    (step (s, c) a).1.score k = if k = key a then φ a (s.score k) else s.score k
  count : ∀ s c a, s.Inv → (step (s, c) a).2 = c + if cnt a (s.score (key a)) then 1 else 0
  size : ∀ s c a, s.Inv → (step (s, c) a).1.size + (if shrink a (s.score (key a)) then 1 else 0) =
    s.size + if grow a (s.score (key a)) then 1 else 0

variable {step key φ cnt grow shrink}

/-- Running a body that acts at one key over a list with distinct keys: each key is touched
    once, and counts read the scores the loop started from. -/
theorem ActsAt.foldl (H : ActsAt step key φ cnt grow shrink) :
    ∀ (l : List α), (l.map key).Nodup → ∀ (s : SsetLsa Score) (c : Nat), s.Inv →
      (l.foldl step (s, c)).1.Inv ∧
      (∀ k, (l.foldl step (s, c)).1.score k =
        match l.find? (fun a => key a == k) with
        | some a => φ a (s.score k)
        | none => s.score k) ∧
      (l.foldl step (s, c)).2 = c + l.countP (fun a => cnt a (s.score (key a))) ∧
      (l.foldl step (s, c)).1.size + l.countP (fun a => shrink a (s.score (key a))) =
        s.size + l.countP (fun a => grow a (s.score (key a)))
  | [], _, _, _, h => ⟨h, fun _ => rfl, rfl, rfl⟩
  | a :: l, hl, s, c, h => by
    rw [List.map_cons, List.nodup_cons] at hl
    have hscore1 := H.score s c a h
    have hcount1 := H.count s c a h
    have hsize1 := H.size s c a h
    have hinv1 := H.inv s c a h
    rcases hs1 : step (s, c) a with ⟨s1, c1⟩
    rw [hs1] at hinv1 hscore1 hcount1 hsize1
    dsimp only at hinv1 hscore1 hcount1 hsize1
    obtain ⟨hinv, hscore, hcount, hsize⟩ := ActsAt.foldl H l hl.2 s1 c1 hinv1
    -- the rest of the loop reads, at its own keys, the scores the loop started from
    have hrest : ∀ b ∈ l, s1.score (key b) = s.score (key b) := fun b hb => by
      rw [hscore1, if_neg fun (hba : key b = key a) => hl.1 (hba ▸ List.mem_map_of_mem key hb)]
    have hcongr (f : α → Option Score → Bool) :
        l.countP (fun b => f b (s1.score (key b))) = l.countP (fun b => f b (s.score (key b))) :=
      List.countP_congr fun b hb => by rw [hrest b hb]
    simp only [List.foldl_cons, hs1]
    refine ⟨hinv, fun k => ?_, ?_, ?_⟩
    · rw [hscore, List.find?_cons]
      by_cases hk : key a = k
      · subst hk
        have hnone : l.find? (fun b => key b == key a) = none :=
          List.find?_eq_none.2 fun b hb hba => hl.1 (by
            rw [← beq_iff_eq.1 hba]; exact List.mem_map_of_mem key hb)
        simp [hnone, hscore1]
      · simp only [beq_eq_false_iff_ne.2 hk]
        rcases l.find? (fun b => key b == k) with _ | b <;> simp [hscore1, Ne.symm hk]
    · rw [hcount, hcount1, hcongr, List.countP_cons]; omega
    · rw [hcongr, hcongr] at hsize
      rw [List.countP_cons, List.countP_cons]; omega

end Loop

/-! ## The loop bodies of the bulk operations -/

section Bodies

variable {s : SsetLsa Score} {c : Nat} {m : Bytes × Score} {it : Ptr}

theorem score_of_find_some {k : Bytes} (h : s.Inv) (hk : s.find k = some it) :
    it ∈ s.dict ∧ s.keyOf it = k ∧ s.score k = some (s.scoreOf it) :=
  ⟨((find_eq_some_iff h).1 hk).1, ((find_eq_some_iff h).1 hk).2, by simp [score, hk]⟩

theorem insertIfNotExistsStep_none (h : s.Inv) (hk : s.find m.1 = none) :
    insertIfNotExistsStep (s, c) m = (((s.construct m.1 m.2).1.insert s.next).1, c + 1) := by
  simp [insertIfNotExistsStep, hk, insert_construct h hk]

theorem insertIfNotExistsStep_some (hk : s.find m.1 = some it) :
    insertIfNotExistsStep (s, c) m = (s, c) := by
  simp [insertIfNotExistsStep, hk]

theorem updateIfOnlyExistsStep_some (hk : s.find m.1 = some it) :
    updateIfOnlyExistsStep (s, c) m = (((s.updateEntryScore it m.2).update it).1, c + 1) := by
  simp only [updateIfOnlyExistsStep, hk, insertOrdered_eq, update_eq, if_true]; rfl

theorem updateIfOnlyExistsStep_none (hk : s.find m.1 = none) :
    updateIfOnlyExistsStep (s, c) m = (s, c) := by
  simp [updateIfOnlyExistsStep, hk]

theorem insertOrUpdateStep_some (hk : s.find m.1 = some it) :
    insertOrUpdateStep (s, c) m = (((s.updateEntryScore it m.2).update it).1, c + 1) := by
  simp [insertOrUpdateStep, hk, update_eq]

theorem insertOrUpdateStep_none (h : s.Inv) (hk : s.find m.1 = none) :
    insertOrUpdateStep (s, c) m = (((s.construct m.1 m.2).1.insert s.next).1, c + 1) := by
  simp [insertOrUpdateStep, hk, insert_construct h hk]

theorem insertOrUpdateKey_none [Add Score] {key : Bytes} {delta : Score} (h : s.Inv)
    (hk : s.find key = none) :
    s.insertOrUpdateKey key delta = (((s.construct key delta).1.insert s.next).1, delta) := by
  simp [insertOrUpdateKey, hk, insert_construct h hk]

theorem insertOrUpdateKey_some [Add Score] {key : Bytes} {delta : Score}
    (hk : s.find key = some it) :
    s.insertOrUpdateKey key delta =
      (((s.updateEntryScore it (delta + s.scoreOf it)).update it).1, delta + s.scoreOf it) := by
  simp [insertOrUpdateKey, hk]

theorem updateScore_none {key : Bytes} {v : Score} (hk : s.find key = none) :
    s.updateScore key v = (s, false) := by
  simp [updateScore, hk]

theorem updateScore_some {key : Bytes} {v : Score} (hk : s.find key = some it) :
    s.updateScore key v = (s.updateEntryScore it v).update it := by
  simp only [updateScore, hk, update_eq, insertOrdered_eq]; rfl

end Bodies

/-- `insert_if_not_exists` adds an absent key and counts it. -/
theorem insertIfNotExistsStep_actsAt :
    ActsAt (@insertIfNotExistsStep Score _) Prod.fst (fun m o => o.or (some m.2))
      (fun _ o => o.isNone) (fun _ o => o.isNone) (fun _ _ => false) := by
  refine ⟨fun s c m h => ?_, fun s c m h k => ?_, fun s c m h => ?_, fun s c m h => ?_⟩ <;>
    rcases hk : s.find m.1 with _ | it
  · rw [insertIfNotExistsStep_none h hk]; exact inv_insert_construct h hk
  · rw [insertIfNotExistsStep_some hk]; exact h
  · rw [insertIfNotExistsStep_none h hk, score_insert_construct h hk]
    split_ifs with hkm
    · simp [hkm, score_eq_none_iff_find.2 hk]
    · rfl
  · rw [insertIfNotExistsStep_some hk]
    split_ifs with hkm
    · simp [hkm, (score_of_find_some h hk).2.2]
    · rfl
  · simp [insertIfNotExistsStep_none h hk, score_eq_none_iff_find.2 hk]
  · simp [insertIfNotExistsStep_some hk, (score_of_find_some h hk).2.2]
  · simp [insertIfNotExistsStep_none h hk, size_insert_construct h hk,
      score_eq_none_iff_find.2 hk]
  · simp [insertIfNotExistsStep_some hk, (score_of_find_some h hk).2.2]

/-- `update_if_only_exists` overwrites a member's score and counts it. -/
theorem updateIfOnlyExistsStep_actsAt :
    ActsAt (@updateIfOnlyExistsStep Score _) Prod.fst (fun m o => o.map fun _ => m.2)
      (fun _ o => o.isSome) (fun _ _ => false) (fun _ _ => false) := by
  refine ⟨fun s c m h => ?_, fun s c m h k => ?_, fun s c m h => ?_, fun s c m h => ?_⟩ <;>
    rcases hk : s.find m.1 with _ | it
  · rw [updateIfOnlyExistsStep_none hk]; exact h
  · rw [updateIfOnlyExistsStep_some hk]; exact inv_relink h (score_of_find_some h hk).1
  · rw [updateIfOnlyExistsStep_none hk]
    split_ifs with hkm
    · simp [hkm, score_eq_none_iff_find.2 hk]
    · rfl
  · obtain ⟨hd, hkey, hsc⟩ := score_of_find_some h hk
    rw [updateIfOnlyExistsStep_some hk, score_relink h hd, hkey]
    split_ifs with hkm
    · simp [hkm, hsc]
    · rfl
  · simp [updateIfOnlyExistsStep_none hk, score_eq_none_iff_find.2 hk]
  · simp [updateIfOnlyExistsStep_some hk, (score_of_find_some h hk).2.2]
  · simp [updateIfOnlyExistsStep_none hk]
  · simp [updateIfOnlyExistsStep_some hk, size_relink h (score_of_find_some h hk).1]

/-- `insert_or_update(members)` sets the score and counts every key; an absent one grows the
    set. -/
theorem insertOrUpdateStep_actsAt :
    ActsAt (@insertOrUpdateStep Score _) Prod.fst (fun m _ => some m.2)
      (fun _ _ => true) (fun _ o => o.isNone) (fun _ _ => false) := by
  refine ⟨fun s c m h => ?_, fun s c m h k => ?_, fun s c m h => ?_, fun s c m h => ?_⟩ <;>
    rcases hk : s.find m.1 with _ | it
  · rw [insertOrUpdateStep_none h hk]; exact inv_insert_construct h hk
  · rw [insertOrUpdateStep_some hk]; exact inv_relink h (score_of_find_some h hk).1
  · rw [insertOrUpdateStep_none h hk, score_insert_construct h hk]
  · obtain ⟨hd, hkey, -⟩ := score_of_find_some h hk
    rw [insertOrUpdateStep_some hk, score_relink h hd, hkey]
  · simp [insertOrUpdateStep_none h hk]
  · simp [insertOrUpdateStep_some hk]
  · simp [insertOrUpdateStep_none h hk, size_insert_construct h hk, score_eq_none_iff_find.2 hk]
  · simp [insertOrUpdateStep_some hk, size_relink h (score_of_find_some h hk).1,
      (score_of_find_some h hk).2.2]

/-! ## Each operation on the member map -/

section Ops

variable {s : SsetLsa Score}

theorem insertIfNotExists_spec (h : s.Inv) (ms : Members Score) :
    (s.insertIfNotExists ms).1.Inv ∧
      (∀ k, (s.insertIfNotExists ms).1.score k = ScoreMap.addAbsent s.score ms.entries k) ∧
      (s.insertIfNotExists ms).2 = ms.entries.countP (fun m => (s.score m.1).isNone) ∧
      (s.insertIfNotExists ms).1.size = s.size + (s.insertIfNotExists ms).2 := by
  obtain ⟨hinv, hscore, hcount, hsize⟩ :=
    insertIfNotExistsStep_actsAt.foldl ms.entries ms.keys_nodup s 0 h
  have hc : (s.insertIfNotExists ms).2 = ms.entries.countP (fun m => (s.score m.1).isNone) := by
    simpa using hcount
  refine ⟨hinv, fun k => ?_, hc, by rw [hc]; simpa using hsize⟩
  rw [insertIfNotExists, hscore]
  simp only [ScoreMap.addAbsent, lookup_eq_find?]
  split
  next _ hf => simp [hf]
  next hf => simp [hf, Option.or_none]

theorem updateIfOnlyExists_spec (h : s.Inv) (ms : Members Score) :
    (s.updateIfOnlyExists ms).1.Inv ∧
      (∀ k, (s.updateIfOnlyExists ms).1.score k = ScoreMap.overrideOnDom s.score ms.entries k) ∧
      (s.updateIfOnlyExists ms).2 = ms.entries.countP (fun m => (s.score m.1).isSome) ∧
      (s.updateIfOnlyExists ms).1.size = s.size := by
  obtain ⟨hinv, hscore, hcount, hsize⟩ :=
    updateIfOnlyExistsStep_actsAt.foldl ms.entries ms.keys_nodup s 0 h
  refine ⟨hinv, fun k => ?_, by simpa using hcount, by simpa using hsize⟩
  rw [updateIfOnlyExists, hscore]
  simp only [ScoreMap.overrideOnDom, lookup_eq_find?]
  split
  next _ hf => simp [hf]
  next hf => simp [hf, Option.or_none]

theorem insertOrUpdate_spec (h : s.Inv) (ms : Members Score) :
    (s.insertOrUpdate ms).1.Inv ∧
      (∀ k, (s.insertOrUpdate ms).1.score k = ScoreMap.override s.score ms.entries k) ∧
      (s.insertOrUpdate ms).2 = ms.entries.length ∧
      (s.insertOrUpdate ms).1.size = s.size + ms.entries.countP (fun m => (s.score m.1).isNone) := by
  obtain ⟨hinv, hscore, hcount, hsize⟩ :=
    insertOrUpdateStep_actsAt.foldl ms.entries ms.keys_nodup s 0 h
  refine ⟨hinv, fun k => ?_, by simpa using hcount, by simpa using hsize⟩
  rw [insertOrUpdate, hscore]
  simp only [ScoreMap.override, lookup_eq_find?]
  split
  next _ hf => simp [hf]
  next hf => simp [hf, Option.or_none]

theorem insertOrUpdateKey_spec [Add Score] [Std.Commutative (fun a b : Score => a + b)] (h : s.Inv)
    (key : Bytes) (delta : Score) :
    (s.insertOrUpdateKey key delta).1.Inv ∧
      (s.insertOrUpdateKey key delta).2 = ((s.score key).map (· + delta)).getD delta ∧
      (∀ k, (s.insertOrUpdateKey key delta).1.score k =
        if k = key then some (s.insertOrUpdateKey key delta).2 else s.score k) ∧
      (s.insertOrUpdateKey key delta).1.size = s.size + if (s.score key).isSome then 0 else 1 := by
  rcases hk : s.find key with _ | it
  · rw [insertOrUpdateKey_none h hk, score_eq_none_iff_find.2 hk]
    exact ⟨inv_insert_construct h hk, rfl, score_insert_construct h hk, size_insert_construct h hk⟩
  · obtain ⟨hd, hkey, hsc⟩ := score_of_find_some h hk
    rw [insertOrUpdateKey_some hk, hsc]
    refine ⟨inv_relink h hd, @Std.Commutative.comm Score (fun a b => a + b) _ _ _,
      fun k => ?_, size_relink h hd⟩
    rw [score_relink h hd, hkey]

theorem updateScore_spec (h : s.Inv) (key : Bytes) (v : Score) :
    (s.updateScore key v).1.Inv ∧ (s.updateScore key v).2 = (s.score key).isSome ∧
      (∀ k, (s.updateScore key v).1.score k =
        if k = key then (s.score key).map (fun _ => v) else s.score k) ∧
      (s.updateScore key v).1.size = s.size ∧
      (s.score key = none → s.updateScore key v = (s, false)) := by
  rcases hk : s.find key with _ | it
  · have hs := score_eq_none_iff_find.2 hk
    rw [updateScore_none hk, hs]
    exact ⟨h, rfl, fun k => by split_ifs with hkk <;> simp [hkk, hs], rfl, fun _ => rfl⟩
  · obtain ⟨hd, hkey, hsc⟩ := score_of_find_some h hk
    rw [updateScore_some hk, hsc]
    refine ⟨inv_relink h hd, by rw [update_eq]; rfl, fun k => ?_, size_relink h hd,
      fun hn => nomatch hn⟩
    rw [score_relink h hd, hkey]; rfl

omit [LinearOrder Score] in
/-- Counting the distinct keys of a set that have a score, one key at a time. -/
theorem card_filter_insert_erase {M : ScoreMap Score} {k : Bytes} (S : Finset Bytes)
    (hk : (M k).isSome) :
    ((Insert.insert k S : Finset Bytes).filter fun k' => (M k').isSome).card =
      ((S.filter fun k' => (M k').isSome).erase k).card + 1 := by
  rw [Finset.filter_insert, if_pos hk, Finset.card_insert_eq_ite, Finset.card_erase_eq_ite]
  split_ifs with hm
  · have := Finset.card_pos.2 ⟨k, hm⟩; omega
  · rfl

theorem eraseKeys_foldl : ∀ (keys : List Bytes) (s : SsetLsa Score) (c : Nat), s.Inv →
    (keys.foldl eraseKeysStep (s, c)).1.Inv ∧
      (∀ k, (keys.foldl eraseKeysStep (s, c)).1.score k = ScoreMap.eraseAll s.score keys k) ∧
      (keys.foldl eraseKeysStep (s, c)).2 =
        c + (keys.toFinset.filter fun k => (s.score k).isSome).card ∧
      (keys.foldl eraseKeysStep (s, c)).1.size +
        (keys.toFinset.filter fun k => (s.score k).isSome).card = s.size
  | [], s, c, h => ⟨h, fun k => by simp [ScoreMap.eraseAll], by simp, by simp⟩
  | k :: ks, s, c, h => by
    rcases hk : s.find k with _ | it
    · -- an absent key: the body does nothing
      have hs := score_eq_none_iff_find.2 hk
      obtain ⟨hinv, hscore, hcount, hsize⟩ := eraseKeys_foldl ks s c h
      have hfilter : ((k :: ks).toFinset.filter fun k => (s.score k).isSome) =
          ks.toFinset.filter fun k => (s.score k).isSome := by
        rw [List.toFinset_cons, Finset.filter_insert, hs]; rfl
      simp only [List.foldl_cons, eraseKeysStep, hk, hfilter]
      refine ⟨hinv, fun k' => ?_, hcount, hsize⟩
      rw [hscore]
      by_cases hkk : k' = k <;> simp [ScoreMap.eraseAll, hkk, hs]
    · -- a member: unlinked from both containers and counted
      obtain ⟨hd, hkey⟩ := (find_eq_some_iff h).1 hk
      have hs : (s.score k).isSome := by simp [score, hk]
      obtain ⟨hinv, hscore, hcount, hsize⟩ := eraseKeys_foldl ks _ (c + 1) (inv_unlink it h)
      have hfilter : (ks.toFinset.filter fun k' =>
          (({ s with dict := s.dict.erase it, list := s.list.erase it } : SsetLsa Score).score
            k').isSome) = (ks.toFinset.filter fun k' => (s.score k').isSome).erase k := by
        ext k'
        by_cases hkk : k' = k <;> simp [score_unlink h hd, hkey, hkk]
      have hcard := card_filter_insert_erase ks.toFinset hs
      simp only [List.foldl_cons, eraseKeysStep, hk, List.toFinset_cons]
      rw [hfilter] at hcount hsize
      refine ⟨hinv, fun k' => ?_, by omega, by have := size_unlink h hd; omega⟩
      rw [hscore]
      by_cases hkk : k' = k <;> simp [ScoreMap.eraseAll, score_unlink h hd, hkey, hkk]

theorem eraseKeys_spec (h : s.Inv) (keys : List Bytes) :
    (s.eraseKeys keys).1.Inv ∧
      (∀ k, (s.eraseKeys keys).1.score k = ScoreMap.eraseAll s.score keys k) ∧
      (s.eraseKeys keys).2 = (keys.toFinset.filter fun k => (s.score k).isSome).card ∧
      (s.eraseKeys keys).1.size + (s.eraseKeys keys).2 = s.size := by
  obtain ⟨hinv, hscore, hcount, hsize⟩ := eraseKeys_foldl keys s 0 h
  exact ⟨hinv, hscore, by simpa using hcount, by simpa [eraseKeys, hcount] using hsize⟩

theorem eraseEntries_foldl : ∀ (ps : List Ptr) (s : SsetLsa Score), s.Inv → ps.Nodup →
    (∀ p ∈ ps, p ∈ s.dict) →
    ∃ t, ps.foldl eraseEntriesStep (some s) = some t ∧ t.Inv ∧
      (∀ k, t.score k = ScoreMap.eraseAll s.score (ps.map s.keyOf) k) ∧
      t.size + ps.length = s.size
  | [], s, h, _, _ => ⟨s, rfl, h, fun k => by simp [ScoreMap.eraseAll], rfl⟩
  | p :: ps, s, h, hnd, hmem => by
    have hp := hmem p (List.mem_cons_self p ps)
    rw [List.nodup_cons] at hnd
    obtain ⟨t, ht, hinv, hscore, hsize⟩ := eraseEntries_foldl ps _ (inv_unlink p h) hnd.2
      fun q hq => (h.dict_nodup.mem_erase_iff).2
        ⟨fun (hqp : q = p) => hnd.1 (hqp ▸ hq), hmem q (List.mem_cons_of_mem p hq)⟩
    refine ⟨t, ?_, hinv, fun k => ?_, ?_⟩
    · simpa [eraseEntriesStep, hp, h.mem_dict_iff.1 hp] using ht
    · rw [hscore]
      by_cases hkk : k = s.keyOf p <;> simp [ScoreMap.eraseAll, score_unlink h hp, hkk]
    · have := size_unlink h hp
      simp only [List.length_cons]; omega

theorem eraseEntries_spec (h : s.Inv) (ps : List Ptr) (hnd : ps.Nodup)
    (hmem : ∀ p ∈ ps, p ∈ s.dict) :
    ∃ t, s.eraseEntries ps = some (t, ps.length) ∧ t.Inv ∧
      (∀ k, t.score k = ScoreMap.eraseAll s.score (ps.map s.keyOf) k) ∧
      t.size + ps.length = s.size := by
  obtain ⟨t, ht, hrest⟩ := eraseEntries_foldl ps s h hnd hmem
  exact ⟨t, by simp [eraseEntries, ht], hrest⟩

end Ops

/-- What the refinement says of a state `s`: each mutating operation keeps the invariant, acts
    on the member map `s.score` as the map operation of spec §4.6 and returns what that
    operation returns. -/
def RefinesScoreMap [Add Score] (s : SsetLsa Score) : Prop :=
  -- insert_if_not_exists(ms): M ∪ {(k, v) ∈ ms | k ∉ dom M}, returns |dom ms \ dom M|
  (∀ ms : Members Score, (s.insertIfNotExists ms).1.Inv ∧
    (∀ k, (s.insertIfNotExists ms).1.score k = ScoreMap.addAbsent s.score ms.entries k) ∧
    (s.insertIfNotExists ms).2 = ms.entries.countP (fun m => (s.score m.1).isNone) ∧
    (s.insertIfNotExists ms).1.size = s.size + (s.insertIfNotExists ms).2) ∧
  -- update_if_only_exists(ms): M overridden on dom M ∩ dom ms, returns |dom M ∩ dom ms|
  (∀ ms : Members Score, (s.updateIfOnlyExists ms).1.Inv ∧
    (∀ k, (s.updateIfOnlyExists ms).1.score k = ScoreMap.overrideOnDom s.score ms.entries k) ∧
    (s.updateIfOnlyExists ms).2 = ms.entries.countP (fun m => (s.score m.1).isSome) ∧
    (s.updateIfOnlyExists ms).1.size = s.size) ∧
  -- insert_or_update(ms): M overridden by ms, returns |ms|
  (∀ ms : Members Score, (s.insertOrUpdate ms).1.Inv ∧
    (∀ k, (s.insertOrUpdate ms).1.score k = ScoreMap.override s.score ms.entries k) ∧
    (s.insertOrUpdate ms).2 = ms.entries.length ∧
    (s.insertOrUpdate ms).1.size = s.size + ms.entries.countP (fun m => (s.score m.1).isNone)) ∧
  -- insert_or_update(key, δ): key ↦ M(key) + δ, or δ; returns the new score
  (∀ key delta, (s.insertOrUpdateKey key delta).1.Inv ∧
    (s.insertOrUpdateKey key delta).2 = ((s.score key).map (· + delta)).getD delta ∧
    (∀ k, (s.insertOrUpdateKey key delta).1.score k =
      if k = key then some (s.insertOrUpdateKey key delta).2 else s.score k) ∧
    (s.insertOrUpdateKey key delta).1.size = s.size + if (s.score key).isSome then 0 else 1) ∧
  -- update_score(key, v): key ↦ v when key ∈ dom M, returns key ∈ dom M
  (∀ key v, (s.updateScore key v).1.Inv ∧ (s.updateScore key v).2 = (s.score key).isSome ∧
    (∀ k, (s.updateScore key v).1.score k =
      if k = key then (s.score key).map (fun _ => v) else s.score k) ∧
    (s.updateScore key v).1.size = s.size ∧
    (s.score key = none → s.updateScore key v = (s, false))) ∧
  -- erase(keys): M minus the keys, returns the number of distinct listed members
  (∀ keys : List Bytes, (s.eraseKeys keys).1.Inv ∧
    (∀ k, (s.eraseKeys keys).1.score k = ScoreMap.eraseAll s.score keys k) ∧
    (s.eraseKeys keys).2 = (keys.toFinset.filter fun k => (s.score k).isSome).card ∧
    (s.eraseKeys keys).1.size + (s.eraseKeys keys).2 = s.size) ∧
  -- erase(entries), distinct members: M minus their keys, returns their number
  (∀ ps : List Ptr, ps.Nodup → (∀ p ∈ ps, p ∈ s.dict) →
    ∃ t, s.eraseEntries ps = some (t, ps.length) ∧ t.Inv ∧
      (∀ k, t.score k = ScoreMap.eraseAll s.score (ps.map s.keyOf) k) ∧
      t.size + ps.length = s.size) ∧
  -- and size() is the number of keys of the member map
  s.size = ((s.dict.map s.keyOf).toFinset).card ∧
    ∀ k, k ∈ (s.dict.map s.keyOf).toFinset ↔ (s.score k).isSome

/-- **Refinement.** Every state satisfying the representation invariant refines the finite map
    `key ↦ score`. Scores are any linear order with a commutative addition, which `double` is
    away from NaN (`+inf + -inf`); keys are ordered as `Pedis.Bytes`, which is
    `sset_entry::compare`'s order for keys below `2^31` bytes (`compareImpl_eq_lex`). -/
theorem sset_lsa_refines_score_map [Add Score] [Std.Commutative (fun a b : Score => a + b)]
    (s : SsetLsa Score) (h : s.Inv) : s.RefinesScoreMap :=
  ⟨fun ms => insertIfNotExists_spec h ms, fun ms => updateIfOnlyExists_spec h ms,
    fun ms => insertOrUpdate_spec h ms, fun key delta => insertOrUpdateKey_spec h key delta,
    fun key v => updateScore_spec h key v, fun keys => eraseKeys_spec h keys,
    fun ps hnd hmem => eraseEntries_spec h ps hnd hmem, h.size_eq_card_dom⟩

/-- The set `{a ↦ 1, b ↦ 2}` that `insert_if_not_exists` builds from the empty set refines its
    member map. -/
theorem refines_score_map_in_ab :
    (fun s : SsetLsa Int => s.Inv ∧ s.RefinesScoreMap)
      ((empty (fun _ => ⟨[], 0⟩) 0).insertIfNotExists ⟨[([97], 1), ([98], 2)], by decide⟩).1 :=
  ⟨(insertIfNotExists_spec (inv_empty _ _) _).1,
    sset_lsa_refines_score_map _ (insertIfNotExists_spec (inv_empty _ _) _).1⟩

/-! ## Read-only queries -/

section Queries

variable {s : SsetLsa Score}

omit [LinearOrder Score] in
/-- `fetch_by_key` pushes back, in the order of `keys` and once per occurrence, the entry of each
    listed key that is a member: read as key and score, the pairs of the member map at `keys`. -/
theorem fetchByKey_spec (s : SsetLsa Score) :
    ∀ (keys : List Bytes) (entries : List Ptr),
      (s.fetchByKey keys entries).map (fun p => (s.keyOf p, s.scoreOf p)) =
        entries.map (fun p => (s.keyOf p, s.scoreOf p)) ++
          keys.filterMap fun k => (s.score k).map ((k, ·))
  | [], entries => by simp [fetchByKey]
  | k :: keys, entries => by
    rw [fetchByKey, List.foldl_cons, ← fetchByKey, fetchByKey_spec s keys, fetchByKeyStep]
    cases hk : s.find k with
    | none => simp [score, hk]
    | some p => simp [score, hk, keyOf_of_find_eq_some hk]

/-- Under `Inv`, `empty()` holds exactly when the member map is empty. -/
theorem isEmpty_eq_true_iff (h : s.Inv) : s.isEmpty = true ↔ ∀ k, s.score k = none := by
  have hnil : s.list = [] ↔ s.dict = [] := by
    rw [← List.length_eq_zero, ← List.length_eq_zero, h.dict_perm.length_eq]
  simp only [isEmpty, List.isEmpty_iff, hnil, score_eq_none_iff, List.eq_nil_iff_forall_not_mem]
  exact ⟨fun hd k p hp => absurd hp (hd p), fun hk p hp => hk _ p hp rfl⟩

/-- In the set `{a ↦ 1}` neither side holds. -/
theorem isEmpty_eq_true_iff_in_a :
    (fun s : SsetLsa Int => s.isEmpty = false ∧ s.score [97] = some 1 ∧
        (s.isEmpty = true ↔ ∀ k, s.score k = none))
      ((empty (fun _ => ⟨[], 0⟩) 0).insertIfNotExists ⟨[([97], 1)], by decide⟩).1 :=
  ⟨by decide, by decide, isEmpty_eq_true_iff (insertIfNotExists_spec (inv_empty _ _) _).1⟩

end Queries

end SsetLsa

end Pedis.SortedSet
