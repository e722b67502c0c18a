import EmbeddedTemplate.Proofs.Code.Lexing
import EmbeddedTemplate.Proofs.Outcome
import EmbeddedTemplate.Template.Tokenize
import Mathlib.Data.List.Chain

/-!
Writing a template: texts, tags, comments and quotations one behind the other, with every end of a
tag escaped that stands in code. The tokens of what is written are the fragments again: a token for
each tag, and one for all that shows between two tags.
-/

namespace EmbeddedTemplate.Template

open Code.Lexed (lineBehind)

inductive Fragment
  | text (content : String)
  | tag (marker code : String)
  | comment (code : String)
  | quotation (content : String)
deriving DecidableEq, Repr

namespace Fragment

def escape : List Char → List Char
  | '%' :: '>' :: cs => '%' :: '%' :: '>' :: escape cs
  | c :: cs => c :: escape cs
  | [] => []

def chars : Fragment → List Char
  | .text content => content.toList
  | .tag marker code => '<' :: '%' :: (marker.toList ++ escape code.toList ++ ['%', '>'])
  | .comment code => '<' :: '%' :: '#' :: (escape code.toList ++ ['%', '>'])
  | .quotation content => '<' :: '%' :: '%' :: (content.toList ++ ['%', '>'])

def source (fs : List Fragment) : String := String.ofList (fs.flatMap chars)

def markers : List String := ["", "=", "/", "|"]

/-- Code that continues a block ends in a comment, which would swallow what is put behind it. -/
def Swallows (code : String) : Prop :=
  (Code.classify code = .opening ∨ Code.classify code = .middle) ∧ Code.endsInComment code

instance (code : String) : Decidable (Swallows code) := inferInstanceAs (Decidable (_ ∧ _))

def Proper : Fragment → Prop
  | .text content => content ≠ "" ∧ ¬ ['<', '%'] <:+: content.toList
  | .tag marker code => marker ∈ markers ∧ code.toList.getLast? ≠ some '%' ∧
      (marker = "" → code.toList.head?.any (· ∉ ['=', '/', '|', '#', '%'])) ∧ ¬ Swallows code
  | .comment code => code.toList.getLast? ≠ some '%'
  | .quotation content => content.toList.head? ≠ some '>' ∧ ¬ ['%', '>'] <:+: content.toList

instance : DecidablePred Proper
  | .text _ => inferInstanceAs (Decidable (_ ∧ _))
  | .tag _ _ => inferInstanceAs (Decidable (_ ∧ _ ∧ _ ∧ _))
  | .comment _ => inferInstanceAs (Decidable (_ ≠ _))
  | .quotation _ => inferInstanceAs (Decidable (_ ∧ _))

def isText : Fragment → Bool
  | .text _ => true
  | _ => false

def isTag : Fragment → Bool
  | .tag _ _ => true
  | _ => false

def shown? : Fragment → Option String
  | .text content => some content
  | .quotation content => some ("<%" ++ content ++ "%>")
  | _ => none

def place (line : Int) : List Fragment → List (Int × Fragment)
  | [] => []
  | f :: fs => (line, f) :: place (lineBehind line f.chars) fs

def leading (fs : List (Int × Fragment)) : List (Int × String) :=
  (fs.takeWhile (!·.2.isTag)).filterMap fun f => f.2.shown?.map (f.1, ·)

/-- One text, on the line of the first contribution to it; none if there are no contributions. -/
def joined : List (Int × String) → List Token
  | [] => []
  | (line, content) :: more => [.text line (content ++ String.join (more.map (·.2)))]

def tagsAndTexts : List (Int × Fragment) → List Token
  | [] => []
  | (line, .tag marker code) :: fs =>
    .tag ⟨Code.classify code, line, marker, code⟩ :: (joined (leading fs) ++ tagsAndTexts fs)
  | _ :: fs => tagsAndTexts fs

def tokens (line : Int) (fs : List Fragment) : List Token :=
  joined (leading (place line fs)) ++ tagsAndTexts (place line fs)

theorem getElem?_place (line : Int) (fs : List Fragment) (i : Nat) :
    (place line fs)[i]? = fs[i]?.map fun f => (lineBehind line ((fs.take i).flatMap chars), f) := by
  induction fs generalizing line i with
  | nil => rfl
  | cons f fs ih =>
    cases i with
    | zero => simp [place]
    | succ i => simp [place, ih, Code.Lexed.lineBehind_append]

end Fragment

structure Written (fs : List Fragment) : Prop where
  proper : ∀ f ∈ fs, f.Proper
  apart : fs.IsChain fun f g => ¬ (f.isText ∧ g.isText)

instance (fs : List Fragment) : Decidable (Written fs) :=
  decidable_of_iff ((∀ f ∈ fs, f.Proper) ∧ fs.IsChain fun f g => ¬ (f.isText ∧ g.isText))
    ⟨fun ⟨hp, ha⟩ => ⟨hp, ha⟩, fun ⟨hp, ha⟩ => ⟨hp, ha⟩⟩

namespace Piece

variable {line : Int} {cs rest : List Char} {c : Char} {ps : List Piece} {piece : Piece}

theorem scan_taken (n : Nat) (line : Int) (cs : List Char) :
    scan n line cs = scan 0 (lineBehind line (cs.take n)) (cs.drop n) := by
  induction cs generalizing n line with
  | nil => cases n <;> rfl
  | cons c cs ih =>
    cases n with
    | zero => simp
    | succ n => rw [scan, ih, List.take_succ_cons, List.drop_succ_cons, Code.Lexed.lineBehind_cons]

def Opens (cs : List Char) : Prop := cs = [] ∨ ∃ more, cs = '<' :: '%' :: more

theorem lineBehind_opening (line : Int) (cs : List Char) :
    lineBehind line ('<' :: '%' :: cs) = lineBehind line cs := by
  simp [lineBehind]

theorem scan_opening (h : read line (cs ++ rest) = some (piece, cs.length)) :
    scan 0 line ('<' :: '%' :: cs ++ rest) =
      let more := scan 0 (lineBehind line ('<' :: '%' :: cs)) rest
      ⟨piece :: more.pieces, more.unclosed⟩ := by
  rw [List.cons_append, List.cons_append, scan, h, lineBehind_opening]
  simp only [scan_taken cs.length, List.take_left, List.drop_left]

theorem read_ne_text {n : Nat} {l : Int} {ds : List Char} :
    read line cs ≠ some (.text l ds, n) := by
  unfold read
  split
  · simp
  · simp
  · split <;> simp
  · simp

theorem head?_scan (h : Opens cs) {l : Int} {ds : List Char} :
    (scan 0 line cs).pieces.head? ≠ some (.text l ds) := by
  obtain rfl | ⟨more, rfl⟩ := h
  · nofun
  · rw [scan]
    cases hr : read line more with
    | none => nofun
    | some r =>
      obtain ⟨piece, n⟩ := r
      intro hp
      cases hp
      exact read_ne_text hr

theorem consText_of_head? (h : ∀ l ds, ps.head? ≠ some (.text l ds)) :
    consText line c ps = .text line [c] :: ps := by
  unfold consText
  split
  · exact absurd rfl (h _ _)
  · rfl

theorem scan_cons (h : ∀ more, c :: cs ≠ '<' :: '%' :: more) :
    scan 0 line (c :: cs) =
      let more := scan 0 (Code.Lexed.lineAfter line c) cs
      ⟨consText line c more.pieces, more.unclosed⟩ := by
  rw [scan]
  exact fun more hc hcs => h more (by rw [hc, hcs])

theorem Opens.head?_ne (h : Opens rest) : rest.head? ≠ some '%' := by
  obtain rfl | ⟨_, rfl⟩ := h
  · nofun
  · simp

theorem ne_opening (hi : ¬ ['<', '%'] <:+: c :: cs)
    (hm : ¬ ((c :: cs).getLast? = some '<' ∧ rest.head? = some '%')) (more : List Char) :
    c :: (cs ++ rest) ≠ '<' :: '%' :: more := by
  intro heq
  obtain ⟨rfl, htail⟩ := List.cons.inj heq
  cases cs with
  | nil => exact hm ⟨rfl, by rw [← List.nil_append rest, htail]; rfl⟩
  | cons d cs =>
    obtain ⟨rfl, -⟩ := List.cons.inj htail
    exact hi ⟨[], cs, rfl⟩

theorem scan_text (hcs : cs ≠ []) (hi : ¬ ['<', '%'] <:+: cs) (hr : Opens rest) :
    scan 0 line (cs ++ rest) =
      let more := scan 0 (lineBehind line cs) rest
      ⟨.text line cs :: more.pieces, more.unclosed⟩ := by
  induction cs generalizing line with
  | nil => exact absurd rfl hcs
  | cons c cs ih =>
    rw [List.cons_append, scan_cons (ne_opening hi fun h => hr.head?_ne h.2),
      Code.Lexed.lineBehind_cons]
    cases cs with
    | nil =>
      rw [List.nil_append, Code.Lexed.lineBehind_nil]
      dsimp only
      rw [consText_of_head? fun l ds => head?_scan hr]
    | cons d cs =>
      rw [ih nofun fun h => hi (h.trans (List.infix_cons (List.infix_refl _)))]
      rfl

theorem readCode_cons (h₁ : ∀ more, c :: cs ≠ '%' :: '%' :: '>' :: more)
    (h₂ : ∀ more, c :: cs ≠ '%' :: '>' :: more) :
    readCode (c :: cs) = (readCode cs).map fun (code, n) => (c :: code, n + 1) := by
  rw [readCode]
  · exact fun more hc hcs => h₁ more (by rw [hc, hcs])
  · exact fun more hc hcs => h₂ more (by rw [hc, hcs])

theorem getLast?_tail (h : (c :: cs).getLast? ≠ some '%') : cs.getLast? ≠ some '%' := by
  cases cs with
  | nil => nofun
  | cons d cs => rwa [List.getLast?_cons_cons] at h

theorem head?_escape_append (h : cs ≠ []) (rest : List Char) :
    (Fragment.escape cs ++ rest).head? = cs.head? := by
  fun_cases Fragment.escape cs with
  | case1 cs | case2 c cs => rfl
  | case3 => exact absurd rfl h

theorem escape_append_ne (h : ('%' :: cs).getLast? ≠ some '%')
    (hne : ∀ more, cs = '>' :: more → False) (more : List Char) :
    Fragment.escape cs ++ rest ≠ '>' :: more := by
  intro heq
  have hhead : cs.head? = some '>' := by
    rw [← head?_escape_append (fun hcs => h (by rw [hcs]; rfl)) rest, heq]
    rfl
  obtain ⟨more, rfl⟩ := List.head?_eq_some_iff.1 hhead
  exact hne more rfl

theorem escape_append_ne_end (h : cs.getLast? ≠ some '%') (hcs : cs ≠ []) (more : List Char) :
    Fragment.escape cs ++ rest ≠ '%' :: '>' :: more := by
  fun_cases Fragment.escape cs with
  | case1 cs => nofun
  | case2 c cs hne =>
    intro heq
    obtain ⟨rfl, htail⟩ := List.cons.inj heq
    exact escape_append_ne h (fun more => hne more rfl) more htail
  | case3 => exact absurd rfl hcs

theorem readCode_escape (h : cs.getLast? ≠ some '%') (rest : List Char) :
    readCode (Fragment.escape cs ++ '%' :: '>' :: rest) =
      some (cs, (Fragment.escape cs).length + 2) := by
  fun_induction Fragment.escape cs with
  | case1 cs ih =>
    rw [List.cons_append, List.cons_append, List.cons_append, readCode,
      ih (getLast?_tail (getLast?_tail h))]
    rfl
  | case2 c cs hne ih =>
    rw [List.cons_append, readCode_cons, ih (getLast?_tail h)]
    · rfl
    · intro more heq
      obtain ⟨rfl, htail⟩ := List.cons.inj heq
      exact escape_append_ne_end (getLast?_tail h) (fun hcs => h (by rw [hcs]; rfl)) more htail
    · intro more heq
      obtain ⟨rfl, htail⟩ := List.cons.inj heq
      exact escape_append_ne h (fun more => hne more rfl) more htail
  | case3 => rfl

theorem readQuotation_append (h : ¬ ['%', '>'] <:+: cs) :
    readQuotation (cs ++ '%' :: '>' :: rest) = some cs := by
  induction cs with
  | nil => rfl
  | cons c cs ih =>
    rw [List.cons_append, readQuotation, ih fun hi => h (hi.trans (List.infix_cons List.infix_rfl))]
    · rfl
    · rintro more rfl htail
      cases cs with
      | nil => cases htail
      | cons d cs =>
        obtain ⟨rfl, -⟩ := List.cons.inj htail
        exact h ⟨[], cs, rfl⟩

end Piece

namespace Fragment

variable {line : Int} {rest : List Char} {f : Fragment} {fs : List Fragment}

def toPiece (line : Int) : Fragment → Piece
  | .text content => .text line content.toList
  | .tag marker code => .tag line marker.toList.head? code.toList
  | .comment code => .tag line (some '#') code.toList
  | .quotation content => .quotation line content.toList

open Piece (Opens scan scan_opening scan_text)

theorem read_marked {c : Char} {cs : List Char} (hc : Piece.isMarker c)
    (h : cs.getLast? ≠ some '%') (line : Int) (rest : List Char) :
    Piece.read line (c :: (escape cs ++ ['%', '>']) ++ rest) =
      some (.tag line (some c) cs, (c :: (escape cs ++ ['%', '>'])).length) := by
  have hne : c ≠ '%' := by
    rintro rfl
    cases hc
  have happ : escape cs ++ ['%', '>'] ++ rest = escape cs ++ '%' :: '>' :: rest := by simp
  rw [List.cons_append, happ, Piece.read, if_pos hc, Piece.readCode_escape h]
  · simp
  all_goals simp [hne]

theorem read_unmarked {c : Char} {cs : List Char} (hc : Piece.isMarker c = false) (hne : c ≠ '%')
    (h : (c :: cs).getLast? ≠ some '%') :
    Piece.read line (escape (c :: cs) ++ ['%', '>'] ++ rest) =
      some (.tag line none (c :: cs), (escape (c :: cs) ++ ['%', '>']).length) := by
  have hcode := Piece.readCode_escape h rest
  have hesc : escape (c :: cs) = c :: escape cs := by
    rw [escape]
    exact fun _ hc => absurd hc hne
  have happ : escape (c :: cs) ++ ['%', '>'] ++ rest = escape (c :: cs) ++ '%' :: '>' :: rest := by
    simp
  rw [happ, hesc, List.cons_append, Piece.read, if_neg (by simp [hc]), ← List.cons_append, ← hesc,
    hcode]
  · simp
  all_goals simp [hne]

theorem Proper.scan_tag {marker code : String} (h : (tag marker code).Proper) :
    scan 0 line ((tag marker code).chars ++ rest) =
      let more := scan 0 (lineBehind line (tag marker code).chars) rest
      ⟨(tag marker code).toPiece line :: more.pieces, more.unclosed⟩ := by
  obtain ⟨hm, hlast, hstart, -⟩ := h
  refine scan_opening ?_
  obtain rfl | ⟨c, rfl, hc⟩ :
      marker = "" ∨ ∃ c, marker = String.singleton c ∧ Piece.isMarker c := by
    simp only [markers, List.mem_cons, List.not_mem_nil, or_false] at hm
    rcases hm with rfl | rfl | rfl | rfl
    · exact .inl rfl
    · exact .inr ⟨'=', rfl, rfl⟩
    · exact .inr ⟨'/', rfl, rfl⟩
    · exact .inr ⟨'|', rfl, rfl⟩
  · obtain ⟨c, hc, hne⟩ := (Option.any_eq_true _ _).1 (hstart rfl)
    obtain ⟨cs, hcs⟩ := List.head?_eq_some_iff.1 hc
    simp only [decide_eq_true_eq, List.mem_cons, List.not_mem_nil, or_false, not_or] at hne
    rw [hcs] at hlast
    rw [toPiece, hcs]
    exact read_unmarked (by simp [Piece.isMarker, hne]) hne.2.2.2.2 hlast
  · simpa [toPiece] using read_marked hc hlast line rest

theorem scan_comment {code : String} (h : (comment code).Proper) :
    scan 0 line ((comment code).chars ++ rest) =
      let more := scan 0 (lineBehind line (comment code).chars) rest
      ⟨(comment code).toPiece line :: more.pieces, more.unclosed⟩ :=
  scan_opening (read_marked rfl h line rest)

theorem Proper.scan_quotation {content : String} (h : (quotation content).Proper) :
    scan 0 line ((quotation content).chars ++ rest) =
      let more := scan 0 (lineBehind line (quotation content).chars) rest
      ⟨(quotation content).toPiece line :: more.pieces, more.unclosed⟩ := by
  obtain ⟨hhead, hinfix⟩ := h
  refine scan_opening ?_
  have happ : content.toList ++ ['%', '>'] ++ rest = content.toList ++ '%' :: '>' :: rest := by simp
  rw [List.cons_append, happ, Piece.read, Piece.readQuotation_append hinfix]
  · simp [toPiece]
  · cases hcs : content.toList with
    | nil => simp
    | cons c cs =>
      rintro more heq
      obtain ⟨rfl, -⟩ := List.cons.inj heq
      exact hhead (by rw [hcs]; rfl)

theorem opens_flatMap (h : ∀ f ∈ fs.head?, f.isText = false) : Opens (fs.flatMap chars) := by
  cases fs with
  | nil => exact .inl rfl
  | cons f fs =>
    cases f with
    | text content => cases h _ rfl
    | tag | comment | quotation => exact .inr ⟨_, rfl⟩

theorem scan_written (h : Written fs) :
    scan 0 line (fs.flatMap chars) = ⟨(place line fs).map fun f => f.2.toPiece f.1, none⟩ := by
  induction fs generalizing line with
  | nil => rfl
  | cons f fs ih =>
    obtain ⟨hp, ha⟩ := h
    obtain ⟨hf, hp⟩ := List.forall_mem_cons.1 hp
    obtain ⟨hnext, ha⟩ := List.isChain_cons.1 ha
    have hscan : scan 0 line (f.chars ++ fs.flatMap chars) =
        let more := scan 0 (lineBehind line f.chars) (fs.flatMap chars)
        ⟨f.toPiece line :: more.pieces, more.unclosed⟩ := by
      cases f with
      | text content =>
        exact scan_text (by simpa [chars] using hf.1) hf.2
          (opens_flatMap fun g hg => by simpa [isText] using hnext g hg)
      | tag marker code => exact hf.scan_tag
      | comment code => exact scan_comment hf
      | quotation content => exact hf.scan_quotation
    rw [List.flatMap_cons, hscan, ih ⟨hp, ha⟩]
    rfl

end Fragment

def Pending.Holds (pending : Pending) : List (Int × String) → Prop
  | [] => pending.chars = []
  | (line, content) :: more =>
    content ≠ "" ∧ pending = ⟨line, (content ++ String.join (more.map (·.2))).toList⟩

theorem Pending.holds_empty : Pending.empty.Holds [] := rfl

namespace Pending.Holds

variable {pending : Pending} {texts : List (Int × String)}

theorem add (h : pending.Holds texts) {content : String} (hc : content ≠ "") (line : Int) :
    (pending.add line content.toList).Holds (texts ++ [(line, content)]) := by
  cases texts with
  | nil =>
    have h : pending.chars = [] := h
    rw [Pending.add, h]
    exact ⟨hc, by simp⟩
  | cons text more =>
    obtain ⟨hne, rfl⟩ := h
    refine ⟨hne, ?_⟩
    simp [Pending.add, hne]

theorem toTokens (h : pending.Holds texts) : pending.toTokens = Fragment.joined texts := by
  cases texts with
  | nil =>
    have h : pending.chars = [] := h
    rw [Pending.toTokens, h]
    rfl
  | cons text more =>
    obtain ⟨hne, rfl⟩ := h
    rw [Pending.toTokens, if_neg (by simp [hne]), String.ofList_toList]
    rfl

end Pending.Holds

namespace Fragment

variable {line : Int} {fs : List (Int × Fragment)} {pending : Pending}
variable {texts : List (Int × String)}

theorem ofCode_of_not_swallows {marker code : String} (h : ¬ Swallows code) :
    Tag.ofCode line marker code = .ok ⟨Code.classify code, line, marker, code⟩ := by
  rw [Tag.ofCode]
  exact if_neg (by simpa [Swallows] using h)

theorem Proper.marker {marker code : String} (h : (tag marker code).Proper) :
    marker.toList.head? ≠ some '#' ∧ marker.toList.head?.elim "" String.singleton = marker := by
  obtain ⟨hm, -⟩ := h
  simp only [markers, List.mem_cons, List.not_mem_nil, or_false] at hm
  rcases hm with rfl | rfl | rfl | rfl <;> decide

@[simp] theorem leading_nil : leading [] = [] := rfl

@[simp] theorem leading_text (line : Int) (content : String) :
    leading ((line, .text content) :: fs) = (line, content) :: leading fs := rfl

@[simp] theorem leading_tag (line : Int) (marker code : String) :
    leading ((line, .tag marker code) :: fs) = [] := rfl

@[simp] theorem leading_comment (line : Int) (code : String) :
    leading ((line, .comment code) :: fs) = leading fs := rfl

@[simp] theorem leading_quotation (line : Int) (content : String) :
    leading ((line, .quotation content) :: fs) =
      (line, "<%" ++ content ++ "%>") :: leading fs := rfl

theorem ofPieces_placed (h : ∀ f ∈ fs, f.2.Proper) (hp : pending.Holds texts) :
    Token.ofPieces pending (fs.map fun f => f.2.toPiece f.1) =
      .ok (joined (texts ++ leading fs) ++ tagsAndTexts fs) := by
  induction fs generalizing pending texts with
  | nil => simp [Token.ofPieces, hp.toTokens, tagsAndTexts]
  | cons f fs ih =>
    obtain ⟨line, f⟩ := f
    obtain ⟨hf, hfs⟩ := List.forall_mem_cons.1 h
    cases f with
    | text content =>
      have := ih hfs (hp.add hf.1 line)
      rwa [List.append_assoc] at this
    | tag marker code =>
      obtain ⟨hm, hmarker⟩ := hf.marker
      rw [List.map_cons, toPiece, Token.ofPieces, if_neg hm, hmarker, String.ofList_toList,
        ofCode_of_not_swallows hf.2.2.2, ok_bind, ih hfs Pending.holds_empty, hp.toTokens]
      simp [tagsAndTexts, pure_eq_ok]
    | comment code => exact ih hfs hp
    | quotation content =>
      have := ih hfs (hp.add (show "<%" ++ content ++ "%>" ≠ "" by simp) line)
      rw [List.append_assoc] at this
      simpa [toPiece, Token.ofPieces, tagsAndTexts] using this

theorem forall_mem_place {P : Fragment → Prop} {fs : List Fragment} (h : ∀ f ∈ fs, P f)
    (line : Int) :
    ∀ f ∈ place line fs, P f.2 := by
  induction fs generalizing line with
  | nil => nofun
  | cons f fs ih =>
    obtain ⟨hf, h⟩ := List.forall_mem_cons.1 h
    exact List.forall_mem_cons.2 ⟨hf, ih h _⟩

end Fragment

/--
A template that is written of fragments has just their tokens: one for each tag, with the kind that
its code makes and the line that it stands on, and one for all the text between two tags.
-/
theorem tokenize_written {fs : List Fragment} (h : Written fs) (line : Int) :
    tokenize (Fragment.source fs) line false = .ok (Fragment.tokens line fs) := by
  have hp := Fragment.ofPieces_placed (Fragment.forall_mem_place h.proper line)
    Pending.holds_empty
  rw [tokenize, Pieces.ofSource, Fragment.source, String.toList_ofList, Fragment.scan_written h]
  simp only [Bool.false_eq_true, if_false, hp, ok_bind]
  rfl

theorem tokenize_written_block :
    let fs : List Fragment := [.text "a\n", .comment " %> ", .quotation "= b\n", .text "<",
      .tag "=" " if \"%>\" do\n", .comment "", .tag "" " else ", .tag "/" "", .quotation "",
      .tag "" "end"]
    Written fs ∧ Fragment.source fs =
      "a\n<%# %%> %><%%= b\n%><<%= if \"%%>\" do\n%><%#%><% else %><%/%><%%%><%end%>" ∧
    tokenize (Fragment.source fs) 3 false = .ok [.text 3 "a\n<%= b\n%><",
      .tag ⟨.opening, 5, "=", " if \"%>\" do\n"⟩, .tag ⟨.middle, 6, "", " else "⟩,
      .tag ⟨.plain, 6, "/", ""⟩, .text 6 "<%%>", .tag ⟨.closing, 6, "", "end"⟩] := by
  intro fs
  have h : Written fs := by decide +kernel
  refine ⟨h, by decide +kernel, ?_⟩
  rw [tokenize_written h]
  decide +kernel

end EmbeddedTemplate.Template
