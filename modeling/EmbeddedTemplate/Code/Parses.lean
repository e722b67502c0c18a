
namespace EmbeddedTemplate.Code

/--
All readings that start at one place, in order of preference, each with the number of tokens that it
leaves; no two leave the same number. `reach` is the number of tokens left after the longest start
of the run that some reading of some other continuation begins with.
-/
structure Parses (α : Type) where
  results : List (Nat × α)
  reach : Nat
deriving Repr

namespace Parses

instance : Inhabited (Parses α) := ⟨⟨[], 0⟩⟩

def fail (left : Nat) : Parses α := ⟨[], left⟩

def done (left : Nat) (a : α) : Parses α := ⟨[(left, a)], left⟩

def map (f : α → β) (p : Parses α) : Parses β :=
  ⟨p.results.map fun r => (r.1, f r.2), p.reach⟩

/-- The readings of two kinds; where both end at one place the first is preferred. -/
def orElse (p q : Parses α) : Parses α :=
  ⟨p.results ++ q.results.filter fun r => p.results.all fun s => s.1 ≠ r.1, min p.reach q.reach⟩

def andThen (p : Parses α) (next : Nat → α → Parses β) : Parses β :=
  p.results.foldr (fun r rest => (next r.1 r.2).orElse rest) (fail p.reach)

def complete? (p : Parses α) : Option α :=
  (p.results.find? fun r => r.1 = 0).map (·.2)

@[simp] theorem results_fail (left : Nat) : (fail left : Parses α).results = [] := rfl

@[simp] theorem results_done (left : Nat) (a : α) : (done left a).results = [(left, a)] := rfl

@[simp] theorem reach_map (f : α → β) (p : Parses α) : (p.map f).reach = p.reach := rfl

@[simp] theorem reach_orElse (p q : Parses α) : (p.orElse q).reach = min p.reach q.reach := rfl

theorem mem_results_map {f : α → β} {p : Parses α} {r : Nat × β} :
    r ∈ (p.map f).results ↔ ∃ a, (r.1, a) ∈ p.results ∧ f a = r.2 := by
  constructor
  · intro h
    obtain ⟨⟨n, a⟩, ha, rfl⟩ := List.mem_map.1 h
    exact ⟨a, ha, rfl⟩
  · rintro ⟨a, ha, hf⟩
    exact List.mem_map.2 ⟨(r.1, a), ha, by rw [hf]⟩

theorem mem_or_of_mem_orElse {p q : Parses α} {r : Nat × α} (h : r ∈ (p.orElse q).results) :
    r ∈ p.results ∨ r ∈ q.results := by
  rcases List.mem_append.1 h with h | h
  · exact .inl h
  · exact .inr (List.mem_filter.1 h).1

end Parses

end EmbeddedTemplate.Code
