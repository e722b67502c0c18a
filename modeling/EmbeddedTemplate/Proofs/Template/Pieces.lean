import EmbeddedTemplate.Proofs.Template.Writing

/-!
How a template splits into pieces. Nothing below looks into `scan` again: a template is empty, or
starts with text up to a tag or quotation or up to its end, or with a tag or quotation that is read.
-/

namespace EmbeddedTemplate.Template

namespace Piece

open Code.Lexed (lineBehind)

inductive Splits : Int → List Char → List Piece → Prop
  | nil {line} : Splits line [] []
  | text {line cs rest ps} : cs ≠ [] → ¬ ['<', '%'] <:+: cs → Opens rest →
      Splits (lineBehind line cs) rest ps → Splits line (cs ++ rest) (.text line cs :: ps)
  | opening {line cs rest piece ps} : read line (cs ++ rest) = some (piece, cs.length) →
      Splits (lineBehind line cs) rest ps → Splits line ('<' :: '%' :: cs ++ rest) (piece :: ps)

variable {line : Int} {cs rest more code : List Char} {c : Char} {n : Nat} {piece : Piece}
variable {ps : List Piece}

theorem exists_of_readCode (h : readCode cs = some (code, n)) : ∃ c d ds, cs = c :: d :: ds := by
  fun_induction readCode cs generalizing code n with
  | case1 | case2 => exact ⟨_, _, _, rfl⟩
  | case3 c cs _ _ ih =>
    obtain ⟨_, hr, -⟩ := Option.map_eq_some_iff.1 h
    obtain ⟨d, e, ds, rfl⟩ := ih hr
    exact ⟨c, d, e :: ds, rfl⟩
  | case4 => cases h

theorem readCode_le (h : readCode cs = some (code, n)) : n ≤ cs.length := by
  fun_induction readCode cs generalizing code n with
  | case1 cs ih | case3 c cs _ _ ih =>
    obtain ⟨⟨inner, m⟩, hr, he⟩ := Option.map_eq_some_iff.1 h
    cases he
    have := ih hr
    simp only [List.length_cons]
    omega
  | case2 cs =>
    cases h
    simp
  | case4 => cases h

theorem readCode_append (h : readCode cs = some (code, n)) (more : List Char) :
    readCode (cs ++ more) = some (code, n) := by
  fun_induction readCode cs generalizing code n with
  | case1 cs ih =>
    obtain ⟨⟨inner, m⟩, hr, he⟩ := Option.map_eq_some_iff.1 h
    cases he
    simp only [List.cons_append, readCode, ih hr, Option.map_some]
  | case2 cs => exact h
  | case3 c cs h₁ h₂ ih =>
    obtain ⟨⟨inner, m⟩, hr, he⟩ := Option.map_eq_some_iff.1 h
    cases he
    -- Whether this is the end of a tag shows in the next two characters, which are there.
    obtain ⟨d, e, ds, rfl⟩ := exists_of_readCode hr
    rw [List.cons_append, readCode_cons, ih hr, Option.map_some]
    · rintro _ heq
      cases heq
      exact h₁ ds rfl rfl
    · rintro _ heq
      cases heq
      exact h₂ (e :: ds) rfl rfl
  | case4 => cases h

theorem length_of_readQuotation (h : readQuotation cs = some code) :
    code.length + 2 ≤ cs.length := by
  fun_induction readQuotation cs generalizing code with
  | case1 cs =>
    cases h
    simp
  | case2 c cs _ ih =>
    obtain ⟨inner, hr, rfl⟩ := Option.map_eq_some_iff.1 h
    have := ih hr
    simp only [List.length_cons]
    omega
  | case3 => cases h

theorem readQuotation_append_right (h : readQuotation cs = some code) (more : List Char) :
    readQuotation (cs ++ more) = some code := by
  fun_induction readQuotation cs generalizing code with
  | case1 cs => exact h
  | case2 c cs hne ih =>
    obtain ⟨inner, hr, rfl⟩ := Option.map_eq_some_iff.1 h
    rw [List.cons_append, readQuotation, ih hr, Option.map_some]
    rintro more rfl heq
    cases cs with
    | nil => cases hr
    | cons d cs =>
      cases heq
      exact hne cs rfl rfl
  | case3 => cases h

theorem read_le (h : read line cs = some (piece, n)) : n ≤ cs.length := by
  unfold read at h
  split at h
  · cases h
    simp
  · obtain ⟨q, hq, he⟩ := Option.map_eq_some_iff.1 h
    cases he
    have := length_of_readQuotation hq
    simp only [List.length_cons]
    omega
  · split at h <;> obtain ⟨⟨code, m⟩, hc, he⟩ := Option.map_eq_some_iff.1 h <;> cases he
    · have := readCode_le hc
      simp only [List.length_cons]
      omega
    · exact readCode_le hc
  · cases h

theorem read_append (h : read line cs = some (piece, n)) (more : List Char) :
    read line (cs ++ more) = some (piece, n) := by
  fun_cases read line cs with
  | case1 cs => exact h
  | case2 cs hne =>
    rw [read] at h
    · obtain ⟨q, hq, he⟩ := Option.map_eq_some_iff.1 h
      rw [List.cons_append, read, readQuotation_append_right hq, Option.map_some, he]
      rintro rest heq
      cases cs with
      | nil => cases hq
      | cons d cs =>
        cases heq
        exact hne cs rfl
    · exact hne
  | case3 c cs h₁ h₂ hm =>
    rw [read, if_pos hm] at h
    · obtain ⟨⟨code, m⟩, hc, he⟩ := Option.map_eq_some_iff.1 h
      rw [List.cons_append, read, if_pos hm, readCode_append hc, Option.map_some, he]
      · exact fun _ hc => absurd hc h₂
      · exact h₂
    · exact h₁
    · exact h₂
  | case4 c cs h₁ h₂ hm =>
    rw [read, if_neg hm] at h
    · obtain ⟨⟨code, m⟩, hc, he⟩ := Option.map_eq_some_iff.1 h
      have hc := readCode_append hc more
      rw [List.cons_append] at hc
      rw [List.cons_append, read, if_neg hm, hc, Option.map_some, he]
      · exact fun _ hc => absurd hc h₂
      · exact h₂
    · exact h₁
    · exact h₂
  | case5 => cases h

theorem exists_text (h : ¬ Opens cs) : ∃ text rest, cs = text ++ rest ∧ text ≠ [] ∧
    ¬ ['<', '%'] <:+: text ∧ Opens rest := by
  induction cs with
  | nil => exact absurd (.inl rfl) h
  | cons c cs ih =>
    by_cases hcs : Opens cs
    · refine ⟨[c], cs, rfl, by simp, fun hi => ?_, hcs⟩
      have := hi.length_le
      simp at this
    · obtain ⟨text, rest, rfl, hne, hi, hr⟩ := ih hcs
      refine ⟨c :: text, rest, rfl, by simp, fun hi' => ?_, hr⟩
      obtain hp | hi' := List.infix_cons_iff.1 hi'
      · obtain ⟨more, hp⟩ := hp
        cases hp
        exact h (.inr ⟨more ++ rest, rfl⟩)
      · exact hi hi'

theorem splits_scan (h : (scan 0 line cs).unclosed = none) :
    Splits line cs (scan 0 line cs).pieces := by
  induction hn : cs.length using Nat.strongRecOn generalizing line cs with
  | ind m ih =>
    by_cases ho : Opens cs
    · obtain rfl | ⟨more, rfl⟩ := ho
      · exact .nil
      · cases hr : read line more with
        | none =>
          rw [scan, hr] at h
          cases h
        | some r =>
          obtain ⟨piece, n⟩ := r
          obtain ⟨body, rest, rfl, rfl⟩ : ∃ body rest, more = body ++ rest ∧ n = body.length :=
            ⟨more.take n, more.drop n, (List.take_append_drop n more).symm,
              by rw [List.length_take, Nat.min_eq_left (read_le hr)]⟩
          have hs := scan_opening hr
          rw [lineBehind_opening] at hs
          rw [← List.cons_append, ← List.cons_append, hs] at h ⊢
          refine .opening hr (ih rest.length ?_ h rfl)
          simp only [← hn, List.length_cons, List.length_append]
          omega
    · obtain ⟨text, rest, rfl, hne, hi, hr⟩ := exists_text ho
      rw [scan_text hne hi hr] at h ⊢
      refine .text hne hi hr (ih rest.length ?_ h rfl)
      have := List.length_pos_of_ne_nil hne
      simp only [← hn, List.length_append]
      omega

end Piece

namespace Pending

variable {p : Pending} {line : Int} {cs ds : List Char}

@[simp] theorem chars_add : (p.add line cs).chars = p.chars ++ cs := by
  unfold add
  split <;> simp_all

theorem add_add (h : cs ≠ []) (l : Int) : (p.add line cs).add l ds = p.add line (cs ++ ds) := by
  by_cases hp : p.chars.isEmpty <;> simp_all [add]

end Pending

theorem tokenize_eq_ok {source : String} {line : Int} {tokens : List Token} :
    tokenize source line false = .ok tokens ↔
      Token.ofPieces .empty (Piece.scan 0 line source.toList).pieces = .ok tokens ∧
        (Piece.scan 0 line source.toList).unclosed = none := by
  simp only [tokenize, Pieces.ofSource, Bool.false_eq_true, if_false]
  cases Token.ofPieces .empty (Piece.scan 0 line source.toList).pieces with
  | error e => simp
  | ok ts => cases (Piece.scan 0 line source.toList).unclosed <;> simp [pure_eq_ok]

end EmbeddedTemplate.Template
