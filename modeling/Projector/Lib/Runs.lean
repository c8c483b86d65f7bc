import Mathlib.Data.List.Basic
import Mathlib.Data.List.Induction

namespace Projector.Lib

variable {σ ε : Type} {step : σ → ε → σ → Prop}

/-- A finite run of a labelled transition system, with the labels of its steps in order. -/
inductive Run (step : σ → ε → σ → Prop) : σ → List ε → σ → Prop where
  | nil (s) : Run step s [] s
  | snoc {s t u events event} : Run step s events t → step t event u →
      Run step s (events ++ [event]) u

namespace Run

/-- A property of the history and the state that every allowed step keeps holds at the
end of every run whose steps are all allowed. -/
theorem invariant_of {allowed : ε → Prop} {I : List ε → σ → Prop} {s t : σ} {events : List ε}
    (h : Run step s events t) (hallowed : ∀ event ∈ events, allowed event) (hstart : I [] s)
    (hstep : ∀ events t event u, I events t → allowed event → step t event u →
      I (events ++ [event]) u) : I events t := by
  induction h with
  | nil => exact hstart
  | snoc hrun hlast ih =>
    rename_i events event
    have hprefix := ih (fun e he => hallowed e (List.mem_append_left _ he))
    exact hstep _ _ _ _ hprefix (hallowed event (by simp)) hlast

theorem invariant {I : List ε → σ → Prop} {s t : σ} {events : List ε}
    (h : Run step s events t) (hstart : I [] s)
    (hstep : ∀ events t event u, I events t → step t event u → I (events ++ [event]) u) :
    I events t := by
  have hall : ∀ event ∈ events, True := fun _ _ => trivial
  exact h.invariant_of hall hstart (fun _ _ _ _ hi _ hs => hstep _ _ _ _ hi hs)

/-- A property of the state alone. -/
theorem stable {P : σ → Prop} {s t : σ} {events : List ε} (h : Run step s events t) (hstart : P s)
    (hstep : ∀ t event u, P t → step t event u → P u) : P t :=
  h.invariant (I := fun _ s => P s) hstart (fun _ _ _ _ hp hs => hstep _ _ _ hp hs)

theorem single {s t : σ} {event : ε} (h : step s event t) : Run step s [event] t :=
  .snoc (.nil s) h

theorem cons {s t u : σ} {event : ε} {events : List ε} (h : step s event t)
    (hrun : Run step t events u) : Run step s (event :: events) u := by
  induction hrun with
  | nil => exact single h
  | snoc _ hlast ih => exact .snoc ih hlast

theorem snoc_inv {s u : σ} {events : List ε} {event : ε} (h : Run step s (events ++ [event]) u) :
    ∃ t, Run step s events t ∧ step t event u := by
  generalize hall : events ++ [event] = all at h
  cases h with
  | nil => simp at hall
  | snoc hrun hlast =>
    obtain ⟨rfl, he⟩ := List.append_inj' hall rfl
    obtain rfl := List.singleton_inj.mp he
    exact ⟨_, hrun, hlast⟩

theorem split {s u : σ} {before after : List ε} (h : Run step s (before ++ after) u) :
    ∃ t, Run step s before t ∧ Run step t after u := by
  induction after using List.reverseRecOn generalizing u with
  | nil =>
    rw [List.append_nil] at h
    exact ⟨u, h, .nil u⟩
  | append_singleton after event ih =>
    rw [← List.append_assoc] at h
    obtain ⟨v, hrun, hlast⟩ := h.snoc_inv
    obtain ⟨t, hbefore, hafter⟩ := ih hrun
    exact ⟨t, hbefore, .snoc hafter hlast⟩

/-- The states before and after one event of a run. -/
theorem around {s u : σ} {before after : List ε} {event : ε}
    (h : Run step s (before ++ event :: after) u) :
    ∃ t t', Run step s before t ∧ step t event t' ∧ Run step t' after u := by
  have happ : before ++ event :: after = before ++ [event] ++ after := by simp
  rw [happ] at h
  obtain ⟨t', hfirst, hafter⟩ := h.split
  obtain ⟨t, hbefore, hstep⟩ := hfirst.snoc_inv
  exact ⟨t, t', hbefore, hstep, hafter⟩

end Run

end Projector.Lib
