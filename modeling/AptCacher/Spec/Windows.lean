import Mathlib.Algebra.Order.BigOperators.Group.List
import Mathlib.Algebra.Order.Ring.Int
import Mathlib.Data.List.Basic

/-!
# Windows of time

Each gate is shut during one window of time. Whatever the windows are, a moment when all the gates
are open is no further away than the windows are long together.

* `Window`: from its `start` on and before its `stop`; `Window.Shut`, `Window.length`.
* `exists_open`: a moment outside every window of a list.
-/

namespace AptCacher.Spec

/-- A window of time: it contains its `start` and not its `stop`. -/
structure Window where
  start : Int
  stop : Int
  deriving DecidableEq

namespace Window

/-- The window contains `t`. -/
def Shut (w : Window) (t : Int) : Prop := w.start ≤ t ∧ t < w.stop

/-- How long the window is. -/
def length (w : Window) : Int := max (w.stop - w.start) 0

theorem length_nonneg (w : Window) : 0 ≤ w.length := le_max_right _ _

/-- The end of a window is no further away than it is long. -/
theorem Shut.stop_le {w : Window} {t : Int} (h : w.Shut t) : w.stop ≤ t + w.length := by
  have hlength : w.stop - w.start ≤ w.length := le_max_left _ _
  have hstart := h.1
  omega

theorem not_shut_of_stop_le {w : Window} {t : Int} (h : w.stop ≤ t) : ¬w.Shut t := by
  intro hshut
  exact absurd hshut.2 (by omega)

end Window

/-- From any moment on, some moment before the lengths of the windows have passed is in none of
them. -/
theorem exists_open (windows : List Window) (t₀ : Int) :
    ∃ t, t₀ ≤ t ∧ t ≤ t₀ + (windows.map Window.length).sum ∧ ∀ w ∈ windows, ¬w.Shut t := by
  -- by induction on the number of windows: wait for the end of one that is shut, and drop it
  induction hn : windows.length generalizing windows t₀ with
  | zero =>
    obtain rfl := List.eq_nil_of_length_eq_zero hn
    refine ⟨t₀, le_refl _, ?_, fun w hw => absurd hw List.not_mem_nil⟩
    simp
  | succ n ih =>
    by_cases hall : ∀ w ∈ windows, ¬w.Shut t₀
    · refine ⟨t₀, le_refl _, ?_, hall⟩
      have hsum : 0 ≤ (windows.map Window.length).sum := by
        refine List.sum_nonneg fun x hx => ?_
        obtain ⟨w, -, rfl⟩ := List.mem_map.mp hx
        exact w.length_nonneg
      omega
    · push Not at hall
      obtain ⟨w, hw, hshut⟩ := hall
      have hlength : (windows.erase w).length = n := by
        rw [List.length_erase_of_mem hw, hn]
        rfl
      obtain ⟨t, ht, hbound, hopen⟩ := ih (windows.erase w) w.stop hlength
      have hsum : (windows.map Window.length).sum =
          w.length + ((windows.erase w).map Window.length).sum :=
        (((List.perm_cons_erase hw).map Window.length).sum_eq).trans List.sum_cons
      have hstop := hshut.stop_le
      have hafter := hshut.2
      refine ⟨t, by omega, by omega, fun v hv => ?_⟩
      by_cases hvw : v = w
      · rw [hvw]
        exact Window.not_shut_of_stop_le ht
      · exact hopen v ((List.mem_erase_of_ne hvw).mpr hv)

end AptCacher.Spec
