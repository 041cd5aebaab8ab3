import BestFit.Proofs.Store.Reachable

/-!
# What an operation adds

`types_apply` says once what an operation can do to the types of a store: it adds one at most, and
`Introduces` says which. `decl?_apply` reads off it what is declared afterwards.
-/
namespace BestFit.Store

variable {ω π : Type} {s s' : Store ω π} {op : Operation ω π} {t : TypeHandle} {d e : TypeDecl}

/-- An operation adds a type that is declared so: a definition that was admitted, or an array
type that was not there before. -/
inductive Introduces (s : Store ω π) : Operation ω π → TypeDecl → Prop
  | definition {d : Definition ω π} (h : s.Admits d) : Introduces s (.declare d) (s.declOf d)
  | array {x : TypeHandle} {d : TypeDecl} (hnew : s.array? x = none) (hd : s.decl? x = some d)
      (hx : s.canHold x = true) : Introduces s (.arrayOf x) (s.arrayDecl x d)

/-- An operation adds one type at most. -/
theorem types_apply (s : Store ω π) (op : Operation ω π) :
    (s.apply op).types = s.types ∨
      ∃ e, s.Introduces op e ∧ (s.apply op).types = s.types.push e := by
  cases op with
  | declare d =>
    rcases s.apply_declare d with ⟨hd, h⟩ | h
    · exact .inr ⟨_, .definition hd, by rw [h]; rfl⟩
    · exact .inl (by rw [h])
  | arrayOf x =>
    have happly : s.apply (.arrayOf x) = ((arrayOf x).run s).2 := rfl
    obtain ⟨_, -, h⟩ | ⟨hnew, d, hd, hx, h⟩ | ⟨-, -, h⟩ := s.arrayOf_cases x
    · exact .inl (by rw [happly, h])
    · exact .inr ⟨_, .array hnew hd hx, by rw [happly, h]⟩
    · exact .inl (by rw [happly, h])
  | unlock k =>
    have happly : s.apply (.unlock k) = ((unlock k).run s).2 := rfl
    left
    obtain ⟨-, h⟩ | ⟨-, -, h⟩ | ⟨-, -, -, h⟩ | ⟨-, -, -, h⟩ := s.unlock_cases k <;>
      rw [happly, h]
  | instantiate k args =>
    obtain ⟨n, world, h⟩ := s.apply_instantiate k args
    exact .inl (by rw [h])
  | elsewhere world => exact .inl rfl

/-- What is declared is read off the types. -/
theorem decl?_congr (h : s'.types = s.types) (t : TypeHandle) : s'.decl? t = s.decl? t := by
  unfold decl?
  rw [h]

/-- What is declared after an operation was declared before it, or is the type that it added. -/
theorem decl?_apply (h : (s.apply op).decl? t = some e) :
    s.decl? t = some e ∨ t = s.nextType ∧ s.Introduces op e := by
  rcases s.types_apply op with htypes | ⟨added, hadded, htypes⟩
  · exact .inl (by rwa [decl?_congr htypes] at h)
  · rw [decl?_congr (s := { s with types := s.types.push added }) htypes, decl?_push] at h
    by_cases ht : t = s.nextType
    · rw [if_pos ht] at h
      cases h
      exact .inr ⟨ht, hadded⟩
    · rw [if_neg ht] at h
      exact .inl h

end BestFit.Store
