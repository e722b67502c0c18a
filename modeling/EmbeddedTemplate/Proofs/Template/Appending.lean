import EmbeddedTemplate.Proofs.Template.Pieces

namespace EmbeddedTemplate.Template

open Code.Lexed (lineBehind)
open Piece (Opens Splits)

def Token.join : List Token → List Token → List Token
  | [], us => us
  | [.text line content], .text _ more :: us => .text line (content ++ more) :: us
  | t :: ts, us => t :: join ts us

/-- The second template goes on with a tag that the first one starts. -/
def Meet (s t : String) : Prop := s.toList.getLast? = some '<' ∧ t.toList.head? = some '%'

instance (s t : String) : Decidable (Meet s t) := inferInstanceAs (Decidable (_ ∧ _))

namespace Token

variable {line : Int} {content : String} {tag : Tag} {ts us vs : List Token}

@[simp] theorem join_nil_left : join [] us = us := rfl

@[simp] theorem join_nil_right : join ts [] = ts := by
  induction ts with
  | nil => rfl
  | cons t ts ih => rw [join, ih]; simp

@[simp] theorem join_tag : join ts (.tag tag :: us) = ts ++ .tag tag :: us := by
  induction ts with
  | nil => rfl
  | cons t ts ih => rw [join, ih]; rfl; simp

theorem join_append_tag : join (ts ++ .tag tag :: us) vs = ts ++ .tag tag :: join us vs := by
  induction ts with
  | nil => rw [List.nil_append, join, List.nil_append]; simp
  | cons t ts ih =>
    rw [List.cons_append, join, ih, List.cons_append]
    cases ts <;> simp

end Token

namespace Token

variable {p q r : Pending} {line : Int} {c : Char} {cs rest : List Char} {ps qs : List Piece}
variable {tokens : List Token}

theorem ofPieces_consText :
    ofPieces p (Piece.consText line c ps) = ofPieces (p.add line [c]) ps := by
  unfold Piece.consText
  split
  · rw [ofPieces, ofPieces, Pending.add_add (by simp), List.singleton_append]
  · rw [ofPieces]

theorem ofPieces_scan_text (hcs : cs ≠ []) (hi : ¬ ['<', '%'] <:+: cs)
    (hm : ¬ (cs.getLast? = some '<' ∧ rest.head? = some '%')) (p : Pending) (line : Int) :
    ofPieces p (Piece.scan 0 line (cs ++ rest)).pieces =
        ofPieces (p.add line cs) (Piece.scan 0 (lineBehind line cs) rest).pieces ∧
      (Piece.scan 0 line (cs ++ rest)).unclosed =
        (Piece.scan 0 (lineBehind line cs) rest).unclosed := by
  induction cs generalizing p line with
  | nil => exact absurd rfl hcs
  | cons c cs ih =>
    rw [List.cons_append, Piece.scan_cons (Piece.ne_opening hi hm), Code.Lexed.lineBehind_cons,
      ofPieces_consText]
    cases cs with
    | nil => simp
    | cons d cs =>
      obtain ⟨h₁, h₂⟩ := ih (by simp) (fun h => hi (h.trans (List.infix_cons List.infix_rfl)))
        (by rwa [List.getLast?_cons_cons] at hm) (p.add line [c]) (Code.Lexed.lineAfter line c)
      exact ⟨by rw [h₁, Pending.add_add (by simp), List.singleton_append], h₂⟩

theorem ofPieces_cons_congr (h : ∀ p, ofPieces p ps = ofPieces p qs) (p : Pending) (piece : Piece) :
    ofPieces p (piece :: ps) = ofPieces p (piece :: qs) := by
  cases piece with
  | text line cs => exact h _
  | quotation line cs => exact h _
  | tag line marker code => simp only [ofPieces, h]

/-- Behind a template that ends there, another one is read as on its own. -/
theorem ofPieces_scan_append {s t : List Char} (hs : Splits line s ps)
    (hm : ¬ (s.getLast? = some '<' ∧ t.head? = some '%')) :
    (∀ p, ofPieces p (Piece.scan 0 line (s ++ t)).pieces =
      ofPieces p (ps ++ (Piece.scan 0 (lineBehind line s) t).pieces)) ∧
    (Piece.scan 0 line (s ++ t)).unclosed = (Piece.scan 0 (lineBehind line s) t).unclosed := by
  induction hs with
  | nil => simp
  | @text line cs rest ps hcs hi hr hs ih =>
    obtain ⟨h₁, h₂⟩ := ih fun h => hm ⟨by rw [List.getLast?_append, h.1]; rfl, h.2⟩
    have hseam : ¬ (cs.getLast? = some '<' ∧ (rest ++ t).head? = some '%') := by
      obtain rfl | ⟨more, rfl⟩ := hr
      · simpa using hm
      · simp
    have htext p := ofPieces_scan_text hcs hi hseam p line
    rw [List.append_assoc, (htext .empty).2, h₂, Code.Lexed.lineBehind_append]
    exact ⟨fun p => by rw [(htext p).1, h₁]; rfl, rfl⟩
  | @opening line cs rest piece ps hr hs ih =>
    obtain ⟨h₁, h₂⟩ := ih fun h => hm ⟨by rw [List.getLast?_append, h.1]; rfl, h.2⟩
    have hr : Piece.read line (cs ++ (rest ++ t)) = some (piece, cs.length) := by
      rw [← List.append_assoc]
      exact Piece.read_append hr t
    rw [List.append_assoc, Piece.scan_opening hr]
    simp only [h₂, Code.Lexed.lineBehind_append, Piece.lineBehind_opening] at h₁ ⊢
    exact ⟨fun p => ofPieces_cons_congr h₁ p piece, trivial⟩

theorem exists_ofPieces_append (h : ofPieces p ps = .ok tokens) :
    ∃ front q, tokens = front ++ q.toTokens ∧
      (front = [] ∨ ∃ before tag, front = before ++ [.tag tag]) ∧
      ∀ more, ofPieces p (ps ++ more) = (ofPieces q more).map (front ++ ·) := by
  induction ps generalizing p tokens with
  | nil =>
    cases h
    exact ⟨[], p, rfl, .inl rfl, fun more => by cases h : ofPieces p more <;> simp [h, Except.map]⟩
  | cons piece ps ih =>
    cases piece with
    | text line cs => exact ih h
    | quotation line cs => exact ih h
    | tag line marker code =>
      rw [ofPieces] at h
      split at h
      · next hc =>
        obtain ⟨front, q, ht, hf, hmore⟩ := ih h
        refine ⟨front, q, ht, hf, fun more => ?_⟩
        rw [List.cons_append, ofPieces, if_pos hc, hmore]
      · next hc =>
        obtain ⟨tag, htag, h⟩ := bind_eq_ok.1 h
        obtain ⟨rest, hr, h⟩ := bind_eq_ok.1 h
        cases h
        obtain ⟨front, q, rfl, hf, hmore⟩ := ih hr
        refine ⟨p.toTokens ++ .tag tag :: front, q, by simp, .inr ?_, fun more => ?_⟩
        · obtain rfl | ⟨before, last, rfl⟩ := hf
          · exact ⟨p.toTokens, tag, rfl⟩
          · exact ⟨p.toTokens ++ .tag tag :: before, last, by simp⟩
        · rw [List.cons_append, ofPieces, if_neg hc, htag, ok_bind, hmore]
          cases ofPieces q more with
          | error e => rfl
          | ok ts => simp [Except.map, pure_eq_ok]

theorem ofPieces_waiting (hq : q.chars ≠ []) (r : Pending) (ps : List Piece) :
    ofPieces ⟨q.line, q.chars ++ r.chars⟩ ps = (ofPieces r ps).map (join q.toTokens) := by
  induction ps generalizing r with
  | nil =>
    by_cases hr : r.chars = [] <;> simp [ofPieces, Pending.toTokens, Except.map, join, hq, hr]
  | cons piece ps ih =>
    have hadd (line : Int) (cs : List Char) : Pending.add ⟨q.line, q.chars ++ r.chars⟩ line cs =
        ⟨q.line, q.chars ++ (r.add line cs).chars⟩ := by
      rw [Pending.chars_add, Pending.add]
      simp [hq]
    cases piece with
    | text line cs => rw [ofPieces, ofPieces, hadd, ih]
    | quotation line cs => rw [ofPieces, ofPieces, hadd, ih]
    | tag line marker code =>
      rw [ofPieces, ofPieces, ih]
      split
      · rfl
      · cases Tag.ofCode line (marker.elim "" String.singleton) (String.ofList code) with
        | error e => rfl
        | ok tag =>
          cases ofPieces .empty ps with
          | error e => rfl
          | ok ts =>
            refine congrArg Except.ok ?_
            by_cases hr : r.chars = [] <;> simp [Pending.toTokens, join, hq, hr]

theorem ofPieces_of_chars_eq_nil (hp : p.chars = []) (hq : q.chars = []) (ps : List Piece) :
    ofPieces p ps = ofPieces q ps := by
  induction ps with
  | nil => simp [ofPieces, Pending.toTokens, hp, hq]
  | cons piece ps ih => cases piece <;> simp [ofPieces, Pending.add, Pending.toTokens, hp, hq, ih]

theorem ofPieces_pending (q : Pending) (ps : List Piece) :
    ofPieces q ps = (ofPieces .empty ps).map (join q.toTokens) := by
  by_cases hq : q.chars = []
  · rw [ofPieces_of_chars_eq_nil hq (q := .empty) rfl, Pending.toTokens, hq]
    cases ofPieces .empty ps <;> simp [Except.map]
  · have := ofPieces_waiting hq .empty ps
    rwa [show Pending.empty.chars = [] from rfl, List.append_nil] at this

end Token

variable {s t : String} {line : Int} {tokens : List Token}

/--
The tokens of two templates that are put together are those of the first one and those of the
second one, which starts on the line where the first one ends; so are the faults of the second one.
-/
theorem tokenize_append (hs : tokenize s line false = .ok tokens) (hm : ¬ Meet s t) :
    tokenize (s ++ t) line false =
      (tokenize t (Code.lastLine s line) false).map (Token.join tokens) := by
  obtain ⟨htokens, hu⟩ := tokenize_eq_ok.1 hs
  obtain ⟨hpieces, hunclosed⟩ := Token.ofPieces_scan_append (Piece.splits_scan hu) hm
  obtain ⟨front, q, rfl, hf, hmore⟩ := Token.exists_ofPieces_append htokens
  rw [← Code.Lexed.lineBehind_toList]
  simp only [tokenize, Pieces.ofSource, String.toList_append, Bool.false_eq_true, if_false,
    hpieces, hmore, hunclosed]
  rw [Token.ofPieces_pending]
  cases Token.ofPieces .empty (Piece.scan 0 (lineBehind line s.toList) t.toList).pieces with
  | error e => rfl
  | ok ts =>
    cases (Piece.scan 0 (lineBehind line s.toList) t.toList).unclosed with
    | some l => rfl
    | none =>
      refine congrArg Except.ok ?_
      obtain rfl | ⟨before, tag, rfl⟩ := hf
      · rfl
      · simp only [List.append_assoc, List.singleton_append, Token.join_append_tag]

theorem tokenize_append_comment :
    let s := "a<%= b %>\n<%# c %><"
    let t := "x<%% d\n%>\n<% e %>"
    tokenize s 3 false = .ok [.text 3 "a", .tag ⟨.plain, 3, "=", " b "⟩, .text 3 "\n<"] ∧
    ¬ Meet s t ∧ ¬ Meet s (t ++ "<%") ∧
    tokenize (s ++ t) 3 false = .ok [.text 3 "a", .tag ⟨.plain, 3, "=", " b "⟩,
      .text 3 "\n<x<% d\n%>\n", .tag ⟨.plain, 6, "", " e "⟩] ∧
    tokenize (s ++ (t ++ "<%")) 3 false = .error ⟨6, .unclosedTag⟩ := by
  intro s t
  have hs : tokenize s 3 false =
      .ok [.text 3 "a", .tag ⟨.plain, 3, "=", " b "⟩, .text 3 "\n<"] := by decide +kernel
  have hm : ¬ Meet s t := by decide
  have hm' : ¬ Meet s (t ++ "<%") := by decide
  refine ⟨hs, hm, hm', ?_, ?_⟩
  · rw [tokenize_append hs hm]
    decide +kernel
  · rw [tokenize_append hs hm']
    decide +kernel

example : Meet "a<" "%= b %>" ∧ (tokenize "a<%= b %>" 1 false).toOption.map List.length = some 2 ∧
    (tokenize "a<" 1 false).toOption = some [.text 1 "a<"] ∧
    (tokenize "%= b %>" 1 false).toOption = some [.text 1 "%= b %>"] := by decide +kernel

end EmbeddedTemplate.Template
