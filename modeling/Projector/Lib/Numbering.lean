import Projector.Lib.Dict
import Projector.Lib.Sorting

namespace Projector.Lib

variable {κ ι ν : Type} [DecidableEq κ] [DecidableEq ι]

namespace Dict

/-- Keys named by their places in a list, from a first place on. -/
def numberFrom (name : Nat → ν) (start : Nat) (d : Dict κ ν) (keys : List κ) : Dict κ ν :=
  (keys.zipIdx start).foldl (fun named (k, place) => named.insert k (name place)) d

theorem numberFrom_cons (name : Nat → ν) (start : Nat) (d : Dict κ ν) (k : κ) (rest : List κ) :
    numberFrom name start d (k :: rest) =
      numberFrom name (start + 1) (d.insert k (name start)) rest := rfl

theorem numberFrom_other {name : Nat → ν} {start : Nat} {d : Dict κ ν} {keys : List κ} {k : κ}
    (h : k ∉ keys) : (numberFrom name start d keys).lookup k = d.lookup k := by
  induction keys generalizing start d with
  | nil => rfl
  | cons a rest ih =>
    obtain ⟨hne, hrest⟩ := not_or.mp (mt List.mem_cons.mpr h)
    rw [numberFrom_cons, ih hrest, AList.lookup_insert_ne hne]

/-- A key that is listed once has the name of its place. -/
theorem numberFrom_place {name : Nat → ν} {start : Nat} {d : Dict κ ν} {keys : List κ}
    (h : keys.Nodup) {i : Nat} {k : κ} (hk : keys[i]? = some k) :
    (numberFrom name start d keys).lookup k = some (name (start + i)) := by
  induction keys generalizing start d i with
  | nil => cases hk
  | cons a rest ih =>
    obtain ⟨ha, hrest⟩ := List.nodup_cons.mp h
    rw [numberFrom_cons]
    cases i with
    | zero =>
      rw [List.getElem?_cons_zero, Option.some.injEq] at hk
      subst hk
      rw [numberFrom_other ha, AList.lookup_insert]
      rfl
    | succ i =>
      rw [List.getElem?_cons_succ] at hk
      rw [ih hrest hk]
      congr 2
      omega

/-- Keys at one place of two lists have one name. -/
theorem number_partners {rel : κ → ι → Prop} (name : Nat → ν) (start : Nat) (d : Dict κ ν)
    (e : Dict ι ν) {keys : List κ} {others : List ι} (h : List.Forall₂ rel keys others)
    (hkeys : keys.Nodup) (hothers : others.Nodup) {k : κ} (hk : k ∈ keys) :
    ∃ o ∈ others, rel k o ∧ ∃ s, (numberFrom name start d keys).lookup k = some s ∧
      (numberFrom name start e others).lookup o = some s := by
  obtain ⟨i, hi, rfl⟩ := List.getElem_of_mem hk
  have hlen := h.length_eq
  have hi' : i < others.length := by omega
  refine ⟨others[i], List.getElem_mem hi', ?_, name (start + i), ?_, ?_⟩
  · exact (List.forall₂_iff_get.mp h).2 i hi hi'
  · exact numberFrom_place hkeys (List.getElem?_eq_getElem hi)
  · exact numberFrom_place hothers (List.getElem?_eq_getElem hi')

end Dict

end Projector.Lib
