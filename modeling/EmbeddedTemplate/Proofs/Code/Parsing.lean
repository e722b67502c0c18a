import EmbeddedTemplate.Proofs.Code.Completeness
import EmbeddedTemplate.Proofs.Code.Lexing
import EmbeddedTemplate.Proofs.Code.Lines

/-!
What parsing answers. Code that splits into tokens is read as a program exactly if the grammar
derives its tokens; otherwise the fault is at the first token, or at the first character, that no
program has there.
-/

namespace EmbeddedTemplate.Code

def Lexeme.texts (ls : List Lexeme) : List Char := ls.flatMap fun l => l.text.toList

namespace Lexed

variable {line : Int} {cs : List Char}

theorem texts_scan (line : Int) (cs : List Char) :
    match (scan 0 line cs).rejected with
    | none => cs = Lexeme.texts (scan 0 line cs).lexemes
    | some (c, l) => ∃ rest, cs = Lexeme.texts (scan 0 line cs).lexemes ++ c :: rest ∧
        Lexeme.first? c rest = none ∧
        l = lineBehind line (Lexeme.texts (scan 0 line cs).lexemes) := by
  induction line, cs using scan_induction with
  | nil line => rfl
  | none line c cs h =>
    rw [scan_none h]
    exact ⟨cs, rfl, h, (lineBehind_nil line).symm⟩
  | some line c cs kind n h ih =>
    rw [scan_some h]
    dsimp only
    generalize scan 0 (lineBehind line (c :: cs.take n)) (cs.drop n) = later at ih ⊢
    have htexts : Lexeme.texts (⟨kind, String.ofList (c :: cs.take n), line⟩ :: later.lexemes) =
        c :: cs.take n ++ Lexeme.texts later.lexemes := by
      simp [Lexeme.texts]
    obtain ⟨lexemes, rejected⟩ := later
    cases rejected with
    | none =>
      dsimp only at ih htexts ⊢
      rw [htexts, ← ih, List.cons_append, List.take_append_drop]
    | some r =>
      obtain ⟨rest, hcs, hf, hl⟩ := ih
      refine ⟨rest, ?_, hf, ?_⟩
      · rw [htexts, List.append_assoc, ← hcs, List.cons_append, List.take_append_drop]
      · rw [hl, htexts, lineBehind_append]

def text (lexed : Lexed) : List Char := Lexeme.texts lexed.lexemes

theorem text_prefix (line : Int) (cs : List Char) : (scan 0 line cs).text <+: cs := by
  have h := texts_scan line cs
  split at h
  · exact ⟨[], by rw [List.append_nil]; exact h.symm⟩
  · obtain ⟨rest, h, -⟩ := h
    exact ⟨_, h.symm⟩

theorem line_of_scan {ls more : List Lexeme} {l : Lexeme}
    (h : (scan 0 line cs).lexemes = ls ++ l :: more) :
    l.line = lineBehind line (Lexeme.texts ls) := by
  induction line, cs using scan_induction generalizing ls with
  | nil line => simp [scan] at h
  | none line c cs hf =>
    rw [scan_none hf] at h
    simp at h
  | some line c cs kind n hf ih =>
    rw [scan_some hf] at h
    dsimp only at h
    cases ls with
    | nil =>
      obtain rfl := (List.cons.inj h).1
      exact (lineBehind_nil line).symm
    | cons k ls =>
      obtain ⟨rfl, hlater⟩ := List.cons.inj h
      rw [ih hlater, Lexeme.texts, Lexeme.texts, List.flatMap_cons, lineBehind_append,
        String.toList_ofList]

end Lexed

structure TokenAt (code : String) (line : Int) (pre : List Token) (t : Token) (before : List Char) :
    Prop where
  lexemes : ∃ ls l more, (Lexed.ofCode code line).lexemes = ls ++ l :: more ∧
    ls.filterMap Lexeme.token? = pre ∧ l.token? = some t ∧ Lexeme.texts ls = before
  text : before ++ t.text.toList <+: code.toList

variable {code : String} {line : Int} {pre post : List Token} {t : Token} {left : Nat}

theorem exists_tokenAt (h : (Lexed.ofCode code line).tokens = pre ++ t :: post) :
    ∃ before, TokenAt code line pre t before ∧ t.line = line + before.count '\n' := by
  obtain ⟨ls₁, rest, hls, hpre, hrest⟩ := List.filterMap_eq_append_iff.1 h
  obtain ⟨blanks, l, more, rfl, hblanks, ht, -⟩ := List.filterMap_eq_cons_iff.1 hrest
  rw [← List.append_assoc] at hls
  have hnone : blanks.filterMap Lexeme.token? = [] := List.filterMap_eq_nil_iff.2 hblanks
  refine ⟨Lexeme.texts (ls₁ ++ blanks), ⟨⟨_, l, more, hls, ?_, ht, rfl⟩, ?_⟩, ?_⟩
  · rw [List.filterMap_append, hpre, hnone, List.append_nil]
  · refine List.IsPrefix.trans ?_ (Lexed.text_prefix line code.toList)
    rw [← Lexed.ofCode, Lexed.text, hls, (Lexeme.token?_eq_some ht).1]
    simp [Lexeme.texts]
  · rw [(Lexeme.token?_eq_some ht).2]
    exact Lexed.line_of_scan hls

/-- What an answer of parsing tells about the code. -/
def Explains [CharacterNames] (code : String) (line : Int) : Except CodeFault Tree → Prop
  | .ok tree =>
    let lexed := Lexed.ofCode code line
    lexed.rejected = none ∧ ∃ p, Derives .program lexed.tokens [p] ∧ p.toTree = .ok tree
  | .error ⟨.before text, faultLine⟩ =>
    ∃ pre t post before, (Lexed.ofCode code line).tokens = pre ++ t :: post ∧ t.text = text ∧
      Viable pre ∧ ¬Viable (pre ++ [t]) ∧ TokenAt code line pre t before ∧
      faultLine = line + before.count '\n'
  | .error ⟨.character c, faultLine⟩ =>
    let lexed := Lexed.ofCode code line
    Viable lexed.tokens ∧ ∃ rest, code.toList = lexed.text ++ c :: rest ∧
      Lexeme.first? c rest = none ∧ faultLine = line + lexed.text.count '\n'
  | .error ⟨.endOfCode, faultLine⟩ =>
    let lexed := Lexed.ofCode code line
    lexed.rejected = none ∧ Viable lexed.tokens ∧ (¬∃ ps, Derives .program lexed.tokens ps) ∧
      faultLine = line + code.toList.count '\n'
  | .error ⟨.literal fault, faultLine⟩ =>
    let lexed := Lexed.ofCode code line
    lexed.rejected = none ∧ faultLine = line ∧
      ∃ p, Derives .program lexed.tokens [p] ∧ p.toTree = .error fault
  | _ => False

theorem Derives.viable {ts : List Token} {ps : List Phrase} (h : Derives .program ts ps) :
    Viable ts := ⟨[], ps, by rwa [List.append_nil]⟩

theorem explains_of_viable [CharacterNames] (hv : Viable (Lexed.ofCode code line).tokens)
    (hd : (Lexed.ofCode code line).rejected = none →
      ¬∃ ps, Derives .program (Lexed.ofCode code line).tokens ps) :
    Explains code line (.error (faultAt code line (Lexed.ofCode code line) 0)) := by
  have hcode := Lexed.texts_scan line code.toList
  rw [← Lexed.ofCode] at hcode
  unfold faultAt
  simp only [Nat.sub_zero, List.getElem?_length]
  generalize hr : (Lexed.ofCode code line).rejected = rejected at hcode hd
  cases rejected with
  | none => exact ⟨hr, hv, hd rfl, rfl⟩
  | some r =>
    obtain ⟨rest, hcs, hf, hl⟩ := hcode
    exact ⟨hv, rest, hcs, hf, hl⟩

theorem faultAt_of_split (h : (Lexed.ofCode code line).tokens = pre ++ t :: post) :
    faultAt code line (Lexed.ofCode code line) (post.length + 1) = ⟨.before t.text, t.line⟩ := by
  have hindex : (pre ++ t :: post).length - (post.length + 1) = pre.length := by simp
  unfold faultAt
  simp only [h, hindex, List.getElem?_append_right (Nat.le_refl _), Nat.sub_self,
    List.getElem?_cons_zero]

theorem exists_split {ts : List Token} (h : left + 1 ≤ ts.length) :
    ∃ pre t post, ts = pre ++ t :: post ∧ post.length = left := by
  have hlen : (ts.drop (ts.length - (left + 1))).length = left + 1 := by
    rw [List.length_drop]
    omega
  obtain ⟨t, post, hdrop⟩ := List.exists_cons_of_length_eq_add_one hlen
  refine ⟨ts.take (ts.length - (left + 1)), t, post, ?_, ?_⟩
  · rw [← hdrop, List.take_append_drop]
  · rw [hdrop] at hlen
    exact Nat.succ.inj hlen

theorem explains_faultAt [CharacterNames]
    (h : Phrase.ofTokens (Lexed.ofCode code line).tokens = .error left) :
    Explains code line (.error (faultAt code line (Lexed.ofCode code line) left)) := by
  have hviable := Phrase.ofTokens_eq_error h
  have hle := (hviable [] _ rfl).1 viable_nil
  cases left with
  | zero =>
    refine explains_of_viable ((hviable _ [] (List.append_nil _).symm).2 (Nat.zero_le _)) ?_
    rw [← Phrase.ofTokens_eq_ok_iff, h]
    simp
  | succ left =>
    obtain ⟨pre, t, post, hts, rfl⟩ := exists_split hle
    obtain ⟨before, hat, hline⟩ := exists_tokenAt hts
    rw [faultAt_of_split hts]
    refine ⟨pre, t, post, before, hts, rfl, ?_, ?_, hat, hline⟩
    · exact (hviable pre (t :: post) hts).2 (Nat.le_refl _)
    · intro hv
      have := (hviable (pre ++ [t]) post (hts.trans (List.append_cons ..))).1 hv
      omega

theorem explains_parse [CharacterNames] (code : String) (line : Int) :
    Explains code line (parse code line) := by
  unfold parse
  dsimp only
  split
  · next p hp hr =>
    have hd := Phrase.derives_of_ofTokens hp
    cases ht : p.toTree with
    | ok tree => exact ⟨hr, p, hd, ht⟩
    | error fault => exact ⟨hr, rfl, p, hd, ht⟩
  · next p r hp hr =>
    exact explains_of_viable (Phrase.derives_of_ofTokens hp).viable (by simp [hr])
  · next left _ hp => exact explains_faultAt hp

def isUngrammatical : Cause → Bool
  | .before _ | .endOfCode => true
  | _ => false

theorem parse_of_derives [CharacterNames] (hr : (Lexed.ofCode code line).rejected = none)
    (h : ∃ ps, Derives .program (Lexed.ofCode code line).tokens ps) :
    ∃ p, Derives .program (Lexed.ofCode code line).tokens [p] ∧
      parse code line = p.toTree.mapError fun fault => ⟨.literal fault, line⟩ := by
  obtain ⟨p, hp⟩ := Phrase.ofTokens_eq_ok_iff.2 h
  refine ⟨p, Phrase.derives_of_ofTokens hp, ?_⟩
  unfold parse
  simp only [hp, hr]

theorem parse_of_not_derives [CharacterNames] (hr : (Lexed.ofCode code line).rejected = none)
    (h : ¬∃ ps, Derives .program (Lexed.ofCode code line).tokens ps) :
    ∃ fault, parse code line = .error fault ∧ isUngrammatical fault.cause := by
  cases hp : Phrase.ofTokens (Lexed.ofCode code line).tokens with
  | ok p => exact absurd (Phrase.ofTokens_eq_ok_iff.1 ⟨p, hp⟩) h
  | error left =>
    refine ⟨faultAt code line (Lexed.ofCode code line) left, ?_, ?_⟩
    · unfold parse
      simp only [hp]
    · unfold faultAt
      rw [hr]
      dsimp only
      split
      · rfl
      · next h => cases h
      · rfl

/--
Code that splits into tokens has a syntax fault exactly if the grammar does not derive them. If it
does, parsing gives the tree of a derivation, or the fault of a literal in it; and each call in the
tree is made for a phrase of the derivation and is on the line where the tokens of that phrase
start.
-/
theorem parse_grammatical [CharacterNames] (code : String) (line : Int)
    (hr : (Lexed.ofCode code line).rejected = none) :
    let w := (Lexed.ofCode code line).tokens
    ((∃ fault, parse code line = .error fault ∧ isUngrammatical fault.cause) ↔
        ¬∃ ps, Derives .program w ps) ∧
      ((∃ ps, Derives .program w ps) → ∃ p, Derives .program w [p] ∧
        parse code line = p.toTree.mapError (fun fault => ⟨.literal fault, line⟩) ∧
        ∀ tree, p.toTree = .ok tree → ∀ u ∈ tree.calls, ∃ q ∈ p.forms, q.Makes u ∧
          ∃ pre t run post before, w = pre ++ t :: run ++ post ∧ ReadAs (t :: run) q ∧
            TokenAt code line pre t before ∧ u.line? = some (line + before.count '\n')) := by
  have htree := parse_of_derives hr
  have hsyntax := parse_of_not_derives hr
  refine ⟨⟨?_, hsyntax⟩, fun h => ?_⟩
  · rintro ⟨fault, hp, hf⟩ h
    obtain ⟨p, -, hparse⟩ := htree h
    rw [hp] at hparse
    cases ht : p.toTree with
    | ok tree =>
      rw [ht] at hparse
      cases hparse
    | error e =>
      rw [ht] at hparse
      cases hparse
      cases hf
  · obtain ⟨p, hd, hparse⟩ := htree h
    refine ⟨p, hd, hparse, fun tree ht u hu => ?_⟩
    obtain ⟨q, hq, hm, pre, t, run, post, hts, hread, hl⟩ := hd.exists_makes ht hu
    rw [List.append_assoc] at hts
    obtain ⟨before, hat, hline⟩ := exists_tokenAt hts
    refine ⟨q, hq, hm, pre, t, run, post, before, ?_, hread, hat, hl.trans (congrArg some hline)⟩
    rw [hts, List.append_assoc]

theorem parse_sum : (Lexed.ofCode "a +\n b" 7).rejected = none ∧
    ∃ p, Derives .program (Lexed.ofCode "a +\n b" 7).tokens [p] ∧
      parse "a +\n b" 7 = p.toTree.mapError fun fault => ⟨.literal fault, 7⟩ := by
  have hr : (Lexed.ofCode "a +\n b" 7).rejected = none := by decide
  have hts : (Lexed.ofCode "a +\n b" 7).tokens =
      [⟨.name, "a", 7⟩] ++ ⟨.sign .plus, "+", 7⟩ :: [⟨.name, "b", 8⟩] := by decide
  have hsum : Derives (.tier 9) ([⟨.name, "a", 7⟩] ++ ⟨.sign .plus, "+", 7⟩ :: [⟨.name, "b", 8⟩])
      [.binary (.name ⟨.name, "a", 7⟩) ⟨.sign .plus, "+", 7⟩ (.name ⟨.name, "b", 8⟩)] :=
    .binary (.tier_of_primary (.name rfl) (by decide)) rfl
      (.tier_of_primary (.name rfl) (by decide))
  have hd := (hsum.tier_le (Nat.zero_le _) (by decide)).program_of_tier
  rw [← hts] at hd
  obtain ⟨p, hp, hparse, -⟩ := (parse_grammatical "a +\n b" 7 hr).2 ⟨_, hd⟩
  exact ⟨hr, p, hp, hparse⟩

end EmbeddedTemplate.Code
