import Mapsto.Value

/-!
# `Mapsto.Proofs.Value.Reach` — the values inside a value

A value may hold others: a function those of the environment it was made in, a built-in the arguments it
has got so far. `Reaches` follows these parts to any depth, and `Everywhere P` says that a condition
holds of all values that are reached, the value itself included. What is done with a value goes one step
into it at most, so of `Everywhere` the one equation `Value.everywhere_iff` is all that is used.
-/

namespace Mapsto

/-- The values of all bindings, the newest first; also of those that newer ones hide. -/
def Environment.values : Environment → List Value
  | .empty => []
  | .extend env _ v => v :: env.values

namespace Value

/-- The values that a value holds directly. -/
def parts : Value → List Value
  | closure _ _ env => env.values
  | applied _ arguments => arguments
  | _ => []

/-- From a value others are reached through environments and through arguments, to any depth. -/
inductive Reaches : Value → Value → Prop where
  | refl (v : Value) : Reaches v v
  | part {v u w : Value} (hu : u ∈ v.parts) (h : Reaches u w) : Reaches v w

/-- A condition holds of a value and of everything inside it. -/
def Everywhere (P : Value → Prop) (v : Value) : Prop := ∀ w, v.Reaches w → P w

theorem everywhere_iff {P : Value → Prop} {v : Value} :
    v.Everywhere P ↔ P v ∧ ∀ u ∈ v.parts, u.Everywhere P := by
  constructor
  · intro h
    exact ⟨h v (.refl v), fun u hu w hw => h w (.part hu hw)⟩
  · rintro ⟨hv, hparts⟩ w hw
    cases hw with
    | refl => exact hv
    | part hu h => exact hparts _ hu w h

end Value

namespace Environment

/-- A condition holds of all values of an environment and of everything inside them. -/
def Everywhere (P : Value → Prop) (env : Environment) : Prop := ∀ v ∈ env.values, v.Everywhere P

variable {P : Value → Prop}

theorem everywhere_empty : Environment.empty.Everywhere P := nofun

theorem everywhere_extend_iff {env : Environment} {name : String} {v : Value} :
    (env.extend name v).Everywhere P ↔ v.Everywhere P ∧ env.Everywhere P :=
  List.forall_mem_cons

theorem Everywhere.of_get? {name : String} {v : Value} : {env : Environment} → env.Everywhere P →
    env.get? name = some v → v.Everywhere P
  | .empty, _, hget => nomatch hget
  | .extend env n u, henv, hget => by
      obtain ⟨hu, henv⟩ := everywhere_extend_iff.mp henv
      by_cases hn : n = name
      · rw [get?, if_pos hn] at hget
        obtain rfl := Option.some.inj hget
        exact hu
      · rw [get?, if_neg hn] at hget
        exact Everywhere.of_get? henv hget

end Environment

end Mapsto
