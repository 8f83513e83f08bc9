import Mathlib.Data.List.Basic

/-!
# What a log says since an event

A log of events, the latest first.

* `Since p q log`: there was an event with `p`, and none with `q` after it.
* `Since.append`: later events without `q` change nothing; `Since.of_mem`: the event is among the
  latest.
-/

namespace AptCacher.Spec

variable {ε : Type} {p p' q : ε → Prop} {log : List ε}

/-- There was an event with `p`, and no event with `q` since. -/
def Since (p q : ε → Prop) (log : List ε) : Prop :=
  ∃ later e earlier, log = later ++ e :: earlier ∧ p e ∧ ∀ x ∈ later, ¬ q x

namespace Since

theorem mono (h : Since p q log) (hp : ∀ e, p e → p' e) : Since p' q log := by
  obtain ⟨later, e, earlier, rfl, he, hlater⟩ := h
  exact ⟨later, e, earlier, rfl, hp e he, hlater⟩

theorem append (h : Since p q log) {events : List ε} (hevents : ∀ x ∈ events, ¬ q x) :
    Since p q (events ++ log) := by
  obtain ⟨later, e, earlier, rfl, he, hlater⟩ := h
  refine ⟨events ++ later, e, earlier, (List.append_assoc _ _ _).symm, he, fun x hx => ?_⟩
  rcases List.mem_append.mp hx with hx | hx
  · exact hevents x hx
  · exact hlater x hx

theorem of_mem {events : List ε} (hevents : ∀ x ∈ events, ¬ q x) {e : ε} (he : e ∈ events)
    (hp : p e) : Since p q (events ++ log) := by
  obtain ⟨later, earlier, rfl⟩ := List.append_of_mem he
  refine ⟨later, e, earlier ++ log, ?_, hp, fun x hx => hevents x (List.mem_append_left _ hx)⟩
  rw [List.append_assoc, List.cons_append]

end Since

end AptCacher.Spec
