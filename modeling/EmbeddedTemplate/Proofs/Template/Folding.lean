import EmbeddedTemplate.Proofs.Template.Meaning

namespace EmbeddedTemplate.Template

variable {tokens rest : List Token} {fold : Fold}

theorem lookAhead_fold (hp : fold.Proper) (source : String) (line : Int) (rest : List Token) :
    lookAhead source line (fold.tokens ++ rest) =
      ⟨source ++ fold.code, fold.tag.line, fold.tokens.length⟩ := by
  obtain ⟨_ | ⟨l, blank⟩, tag⟩ := fold
  · simp [Fold.tokens, Fold.code, lookAhead, hp.1]
  · have hb := hp.2 (l, blank) rfl
    simp [Fold.tokens, Fold.code, lookAhead, hp.1, hb, String.append_assoc]

theorem lookAhead_of_not_startsWithFold (h : ¬ StartsWithFold tokens) (source : String)
    (line : Int) : lookAhead source line tokens = ⟨source, line, 0⟩ := by
  obtain ⟨-, hl⟩ | ⟨fold, rest, hp, rfl, -⟩ := lookAhead_cases source line tokens
  · exact hl
  · exact absurd ⟨fold, rest, hp, rfl⟩ h

structure Look where
  source : String
  line : Int
  position : Nat
deriving DecidableEq, Repr

namespace Look

def next (tokens : List Token) (look : Look) : Look :=
  let ahead := lookAhead look.source look.line (tokens.drop look.position)
  ⟨ahead.source, ahead.line, look.position + ahead.taken⟩

/-- The place behind a fold, with the code of the fold. -/
def behind (look : Look) (fold : Fold) : Look :=
  ⟨look.source ++ fold.code, fold.tag.line, look.position + fold.tokens.length⟩

variable {look : Look}

theorem behind_ne (look : Look) (fold : Fold) : look.behind fold ≠ look := by
  intro h
  have : look.position + fold.tokens.length = look.position := congrArg position h
  simp [Fold.tokens] at this

theorem next_of_fold (hp : fold.Proper) (h : tokens.drop look.position = fold.tokens ++ rest) :
    look.next tokens = look.behind fold := by
  rw [next, h, lookAhead_fold hp]
  rfl

theorem drop_behind (h : tokens.drop look.position = fold.tokens ++ rest) :
    tokens.drop (look.behind fold).position = rest := by
  rw [behind, ← List.drop_drop, h, List.drop_left]

theorem next_eq_self_iff : look.next tokens = look ↔
    ¬ StartsWithFold (tokens.drop look.position) := by
  constructor
  · rintro h ⟨fold, rest, hp, ht⟩
    exact look.behind_ne fold ((next_of_fold hp ht).symm.trans h)
  · intro h
    rw [next, lookAhead_of_not_startsWithFold h]
    rfl

/--
A second look changes nothing exactly if no two folds stand in a row at the place; if two do, the
first look takes the first of them and the second look takes the second.
-/
theorem next_next_eq_next_iff (tokens : List Token) (look : Look) :
    ((look.next tokens).next tokens = look.next tokens ↔
      ¬ ∃ first second : Fold, first.Proper ∧ second.Proper ∧
        first.tokens ++ second.tokens <+: tokens.drop look.position) ∧
    ∀ first second : Fold, first.Proper → second.Proper →
      first.tokens ++ second.tokens <+: tokens.drop look.position →
        look.next tokens = look.behind first ∧
          (look.next tokens).next tokens = (look.behind first).behind second := by
  have hboth (first second : Fold) (hf : first.Proper) (hs : second.Proper)
      (h : first.tokens ++ second.tokens <+: tokens.drop look.position) :
      look.next tokens = look.behind first ∧
        (look.next tokens).next tokens = (look.behind first).behind second := by
    obtain ⟨rest, h⟩ := h
    rw [List.append_assoc] at h
    have hfirst := next_of_fold hf h.symm
    refine ⟨hfirst, ?_⟩
    rw [hfirst]
    exact next_of_fold hs (drop_behind h.symm)
  refine ⟨⟨?_, fun h => ?_⟩, hboth⟩
  · rintro h ⟨first, second, hf, hs, ht⟩
    obtain ⟨hfirst, hsecond⟩ := hboth first second hf hs ht
    rw [hsecond, hfirst] at h
    exact behind_ne _ second h
  · by_cases hd : StartsWithFold (tokens.drop look.position)
    · obtain ⟨first, rest, hf, hd⟩ := hd
      rw [next_of_fold hf hd, next_eq_self_iff, drop_behind hd]
      rintro ⟨second, rest, hs, rfl⟩
      exact h ⟨first, second, hf, hs, rest, by rw [hd, List.append_assoc]⟩
    · have hself := next_eq_self_iff.2 hd
      rw [hself, hself]

theorem next_next_of_catch :
    let tokens : List Token := [.tag ⟨.opening, 1, "=", " if x do "⟩, .text 1 " ",
      .tag ⟨.middle, 1, "", " else "⟩, .text 1 "\n", .tag ⟨.middle, 2, "", " catch "⟩, .text 2 "b",
      .tag ⟨.closing, 2, "", " end "⟩]
    let look : Look := ⟨" if x do ", 1, 1⟩
    let first : Fold := ⟨some (1, " "), ⟨.middle, 1, "", " else "⟩⟩
    let second : Fold := ⟨some (1, "\n"), ⟨.middle, 2, "", " catch "⟩⟩
    first.Proper ∧ second.Proper ∧ first.tokens ++ second.tokens <+: tokens.drop look.position ∧
      look.next tokens = ⟨" if x do   else ", 1, 3⟩ ∧
      (look.next tokens).next tokens = ⟨" if x do   else \n catch ", 2, 5⟩ := by
  intro tokens look first second
  have hf : first.Proper := ⟨by decide, by decide⟩
  have hs : second.Proper := ⟨by decide, by decide⟩
  have h : first.tokens ++ second.tokens <+: tokens.drop look.position :=
    ⟨[.text 2 "b", .tag ⟨.closing, 2, "", " end "⟩], rfl⟩
  exact ⟨hf, hs, h, (next_next_eq_next_iff tokens look).2 first second hf hs h⟩

theorem next_next_ne : ∃ tokens,
    tokenize "<%= if x do %> <% else %> <% catch %>b<% end %>" 1 false = .ok tokens ∧
      next tokens ⟨" if x do ", 1, 1⟩ = ⟨" if x do   else ", 1, 3⟩ ∧
      next tokens ⟨" if x do   else ", 1, 3⟩ = ⟨" if x do   else   catch ", 1, 5⟩ :=
  ⟨[.tag ⟨.opening, 1, "=", " if x do "⟩, .text 1 " ", .tag ⟨.middle, 1, "", " else "⟩,
    .text 1 " ", .tag ⟨.middle, 1, "", " catch "⟩, .text 1 "b", .tag ⟨.closing, 1, "", " end "⟩],
    by decide +kernel, by decide, by decide⟩

end Look

end EmbeddedTemplate.Template
