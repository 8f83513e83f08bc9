import Mathlib.Data.List.Rotate

/-!
# Turns on a ring

A ring is a list with the index of the member whose turn is next. `ahead b l n` are the members that
come before `b` when the turns go round from index `n`.

* `ahead_turn`: a turn taken ahead of `b` cuts the list up to the member that took it.
* `ahead_of_filter`: members that leave the ring leave the list.
* `mem_ahead_append`: a member that joins at the end of `l` comes before `b` only when the turn is past `b`.
-/

namespace AptCacher.Spec

variable {α : Type*} [DecidableEq α] {b : α} {l : List α} {n : Nat}

/-- The members that come before `b`, from index `n` round the ring. -/
def ahead (b : α) (l : List α) (n : Nat) : List α := (l.rotate n).takeWhile (· != b)

theorem ne_of_mem_takeWhile {x : α} (h : x ∈ l.takeWhile (· != b)) : x ≠ b := by
  simpa using List.all_eq_true.mp (List.all_takeWhile) x h

theorem takeWhile_ne_append (h : b ∈ l) (r : List α) :
    (l ++ r).takeWhile (· != b) = l.takeWhile (· != b) := by
  induction l with
  | nil => cases h
  | cons a l ih =>
    rw [List.cons_append, List.takeWhile_cons, List.takeWhile_cons]
    by_cases hab : a = b
    · simp [hab]
    · rw [ih ((List.mem_cons.mp h).resolve_left (Ne.symm hab))]

theorem takeWhile_ne_cons {r : List α} (h : b ∉ l) : (l ++ b :: r).takeWhile (· != b) = l := by
  have hpos : ∀ a ∈ l, (a != b) = true := fun a ha => by simpa using ne_of_mem_of_not_mem ha h
  rw [List.takeWhile_append_of_pos hpos]
  simp

theorem takeWhile_ne_filter {p : α → Bool} (hb : p b = true) :
    (l.filter p).takeWhile (· != b) = (l.takeWhile (· != b)).filter p := by
  induction l with
  | nil => rfl
  | cons a l ih =>
    by_cases hab : a = b
    · simp [hab, hb]
    · have hstop : (a != b) = true := by simpa using hab
      simp only [List.takeWhile_cons, List.filter_cons, hstop, if_true]
      split
      · rw [List.takeWhile_cons, if_pos hstop, ih]
      · exact ih

theorem rotate_eq_ahead (hb : b ∈ l) : ∃ r, l.rotate n = ahead b l n ++ b :: r := by
  obtain ⟨w, r, hsplit, hw⟩ := List.eq_append_cons_of_mem (List.mem_rotate.mpr hb : b ∈ l.rotate n)
  refine ⟨r, ?_⟩
  rw [ahead, hsplit, takeWhile_ne_cons hw]

theorem ahead_nodup (h : l.Nodup) : (ahead b l n).Nodup :=
  (List.nodup_rotate.mpr h).sublist (List.takeWhile_sublist _)

theorem getElem?_ahead (hb : b ∈ l) {i : Nat} (hi : i < (ahead b l n).length) :
    (ahead b l n)[i]? = l[(n + i) % l.length]? := by
  obtain ⟨r, hr⟩ := rotate_eq_ahead (n := n) hb
  have hlen := congrArg List.length hr
  rw [List.length_rotate, List.length_append] at hlen
  rw [Nat.add_comm, ← List.getElem?_rotate (by omega), hr, List.getElem?_append_left hi]

theorem getElem?_ahead_length (hb : b ∈ l) : l[(n + (ahead b l n).length) % l.length]? = some b := by
  obtain ⟨r, hr⟩ := rotate_eq_ahead (n := n) hb
  have hlen := congrArg List.length hr
  rw [List.length_rotate, List.length_append, List.length_cons] at hlen
  rw [Nat.add_comm, ← List.getElem?_rotate (by omega), hr, List.getElem?_append_right (Nat.le_refl _)]
  simp

theorem ahead_turn (hb : b ∈ l) {i : Nat} {x : α} (hi : (ahead b l n)[i]? = some x) :
    ahead b l (((n + i) % l.length + 1) % l.length) = (ahead b l n).drop (i + 1) := by
  obtain ⟨hlt, -⟩ := List.getElem?_eq_some_iff.mp hi
  obtain ⟨r, hr⟩ := rotate_eq_ahead (n := n) hb
  have hrot : l.rotate (((n + i) % l.length + 1) % l.length) = (l.rotate n).rotate (i + 1) := by
    rw [List.rotate_mod, List.rotate_rotate, ← List.rotate_mod, ← List.rotate_mod l (n + (i + 1)), ← Nat.add_assoc,
      Nat.mod_add_mod]
  have hnot : b ∉ (ahead b l n).drop (i + 1) := fun hmem =>
    ne_of_mem_takeWhile (List.mem_of_mem_drop hmem) rfl
  conv_lhs => rw [ahead, hrot, hr]
  rw [List.rotate_eq_drop_append_take (by rw [List.length_append]; omega),
    List.drop_append_of_le_length (by omega), List.append_assoc, List.cons_append, takeWhile_ne_cons hnot]

/-- Members leave, and the turn stays where it was among those that are left. -/
theorem ahead_of_filter {l' : List α} {n' : Nat} {p : α → Bool} (hb : p b = true)
    (h : l'.rotate n' = (l.rotate n).filter p) : ahead b l' n' = (ahead b l n).filter p := by
  rw [ahead, h, takeWhile_ne_filter hb]
  rfl

theorem mem_drop_of_idxOf {α : Type*} [BEq α] [LawfulBEq α] {b : α} {l : List α} (hn : n ≤ l.idxOf b) (hb : b ∈ l) : b ∈ l.drop n := by
  have hlt := List.idxOf_lt_length_iff.mpr hb
  refine List.mem_drop_iff_getElem.mpr ⟨l.idxOf b - n, by omega, ?_⟩
  simp [Nat.add_sub_cancel' hn]

theorem mem_ahead_append (hn : n ≤ l.length) {x y : α} (hy : y ∈ ahead b (l ++ [x]) n) :
    y ∈ ahead b l n ∨ (y = x ∧ b ∉ l.drop n) := by
  have hle : n ≤ (l ++ [x]).length := by
    rw [List.length_append]
    omega
  rw [ahead, List.rotate_eq_drop_append_take hle, List.drop_append_of_le_length hn,
    List.take_append_of_le_length hn, List.append_assoc] at hy
  rw [ahead, List.rotate_eq_drop_append_take hn]
  by_cases hb : b ∈ l.drop n
  · rw [takeWhile_ne_append hb] at hy ⊢
    exact .inl hy
  · have hpos : ∀ a ∈ l.drop n, (a != b) = true := fun a ha => by simpa using ne_of_mem_of_not_mem ha hb
    rw [List.takeWhile_append_of_pos hpos] at hy ⊢
    rcases List.mem_append.mp hy with hy | hy
    · exact .inl (List.mem_append_left _ hy)
    · rw [List.cons_append, List.nil_append, List.takeWhile_cons] at hy
      split at hy
      · rcases List.mem_cons.mp hy with rfl | hy
        · exact .inr ⟨rfl, hb⟩
        · exact .inl (List.mem_append_right _ hy)
      · cases hy

end AptCacher.Spec
