import EmbeddedTemplate.Proofs.Template.Pieces

/-!
Where everything stands in a template: its characters, quotations, tags and comments, each with the
places in the source where it starts and ends. The tokens of a template are read off its layout.
-/

namespace EmbeddedTemplate.Template

open Code.Lexed (lineBehind)
open Piece (Splits)

structure Stretch where
  start : Nat
  stop : Nat
  fragment : Fragment
deriving DecidableEq, Repr

def Piece.toFragment : Piece → Fragment
  | .text _ cs => .text (String.ofList cs)
  | .quotation _ cs => .quotation (String.ofList cs)
  | .tag _ marker code =>
    if marker = some '#' then .comment (String.ofList code)
    else .tag (marker.elim "" String.singleton) (String.ofList code)

namespace Stretch

/-- The stretches of a source of which the first `taken` characters belong to one already found. -/
def scan : (taken place : Nat) → List Char → List Stretch
  | _, _, [] => []
  | taken + 1, place, _ :: cs => scan taken (place + 1) cs
  | 0, place, '<' :: '%' :: cs =>
    match Piece.read 0 cs with
    | none => []
    | some (piece, n) => ⟨place, place + 2 + n, piece.toFragment⟩ :: scan n (place + 2) cs
  | 0, place, c :: cs => ⟨place, place + 1, .text (String.singleton c)⟩ :: scan 0 (place + 1) cs

def ofSource (source : String) : List Stretch := scan 0 0 source.toList

def placed (source : List Char) (line : Int) (ss : List Stretch) : List (Int × Fragment) :=
  ss.map fun s => (lineBehind line (source.take s.start), s.fragment)

def tokens (source : List Char) (line : Int) (ss : List Stretch) : List Token :=
  Fragment.joined (Fragment.leading (placed source line ss)) ++
    Fragment.tagsAndTexts (placed source line ss)

def text (place : Nat) : List Char → List Stretch
  | [] => []
  | c :: cs => ⟨place, place + 1, .text (String.singleton c)⟩ :: text (place + 1) cs

variable {place n : Nat} {c : Char} {cs ds rest : List Char} {piece : Piece} {line : Int}

theorem text_append : text place (cs ++ ds) = text place cs ++ text (place + cs.length) ds := by
  induction cs generalizing place with
  | nil => rfl
  | cons c cs ih => simp [text, ih, Nat.add_comm, Nat.add_left_comm]

theorem scan_taken (n place : Nat) (h : n ≤ cs.length) :
    scan n place cs = scan 0 (place + n) (cs.drop n) := by
  induction cs generalizing n place with
  | nil =>
    obtain rfl : n = 0 := by simpa using h
    rfl
  | cons c cs ih =>
    cases n with
    | zero => rfl
    | succ n =>
      rw [scan, ih _ _ (by simpa using h), List.drop_succ_cons]
      congr 1
      omega

theorem scan_cons (h : ∀ more, c :: cs ≠ '<' :: '%' :: more) : scan 0 place (c :: cs) =
    ⟨place, place + 1, .text (String.singleton c)⟩ :: scan 0 (place + 1) cs := by
  rw [scan]
  exact fun more hc hcs => h more (by rw [hc, hcs])

theorem scan_text (hi : ¬ ['<', '%'] <:+: cs) (hr : Piece.Opens rest) :
    scan 0 place (cs ++ rest) = text place cs ++ scan 0 (place + cs.length) rest := by
  induction cs generalizing place with
  | nil => rfl
  | cons c cs ih =>
    rw [List.cons_append, scan_cons (Piece.ne_opening hi fun h => hr.head?_ne h.2),
      ih fun h => hi (h.trans (List.infix_cons List.infix_rfl)), text, List.cons_append,
      List.length_cons]
    congr 3
    omega

theorem read_zero (h : Piece.read line cs = some (piece, n)) :
    ∃ piece', Piece.read 0 cs = some (piece', n) ∧ piece'.toFragment = piece.toFragment := by
  unfold Piece.read at h ⊢
  split at h
  · cases h
    exact ⟨_, rfl, rfl⟩
  · obtain ⟨q, hq, he⟩ := Option.map_eq_some_iff.1 h
    cases he
    refine ⟨.quotation 0 q, ?_, rfl⟩
    simp_all
  · split at h
    all_goals
      obtain ⟨⟨code, m⟩, hc, he⟩ := Option.map_eq_some_iff.1 h
      cases he
      refine ⟨.tag 0 _ code, ?_, rfl⟩
      simp_all
  · cases h

theorem scan_opening (h : Piece.read line (cs ++ rest) = some (piece, cs.length)) :
    scan 0 place ('<' :: '%' :: cs ++ rest) =
      ⟨place, place + 2 + cs.length, piece.toFragment⟩ :: scan 0 (place + 2 + cs.length) rest := by
  obtain ⟨piece', h, hf⟩ := read_zero h
  rw [List.cons_append, List.cons_append, scan, h]
  simp only [hf]
  rw [scan_taken _ _ (by simp), List.drop_left]

end Stretch

/--
Stretches are the characters, quotations and tags of pieces, which have the lines of their places; a
text without characters has no line.
-/
inductive Gathers (lineAt : Nat → Int) : List Piece → List Stretch → Prop
  | nil : Gathers lineAt [] []
  | text {line cs place ps ss} : (cs ≠ [] → line = lineAt place) → Gathers lineAt ps ss →
      Gathers lineAt (.text line cs :: ps) (Stretch.text place cs ++ ss)
  | quotation {cs start stop ps ss} : Gathers lineAt ps ss →
      Gathers lineAt (.quotation (lineAt start) cs :: ps)
        (⟨start, stop, .quotation (String.ofList cs)⟩ :: ss)
  | tag {marker code start stop ps ss} : Gathers lineAt ps ss →
      Gathers lineAt (.tag (lineAt start) marker code :: ps)
        (⟨start, stop, (Piece.tag 0 marker code).toFragment⟩ :: ss)

section

variable {lineAt : Nat → Int} {pending : Pending} {texts : List (Int × String)} {line : Int}
variable {place : Nat} {cs : List Char} {ps : List Piece} {ss : List Stretch} {tokens : List Token}

def Stretch.shown (lineAt : Nat → Int) (place : Nat) : List Char → List (Int × String)
  | [] => []
  | c :: cs => (lineAt place, String.singleton c) :: shown lineAt (place + 1) cs

theorem Pending.Holds.add_text (h : pending.Holds texts) (hl : cs ≠ [] → line = lineAt place) :
    (pending.add line cs).Holds (texts ++ Stretch.shown lineAt place cs) := by
  induction cs generalizing pending texts line place with
  | nil =>
    rw [Stretch.shown, List.append_nil]
    cases texts with
    | nil =>
      have h : pending.chars = [] := h
      simp [Pending.Holds, h]
    | cons text more =>
      obtain ⟨hne, rfl⟩ := h
      exact ⟨hne, by simp [Pending.add, hne]⟩
  | cons c cs ih =>
    obtain rfl : line = lineAt place := hl (by simp)
    have hadd : pending.add (lineAt place) (c :: cs) =
        (pending.add (lineAt place) [c]).add (lineAt (place + 1)) cs :=
      (Pending.add_add (List.cons_ne_nil c []) _).symm
    have hc := h.add (show String.singleton c ≠ "" by simp) (lineAt place)
    rw [String.toList_singleton] at hc
    have hcs : ((pending.add (lineAt place) [c]).add (lineAt (place + 1)) cs).Holds
        (texts ++ [(lineAt place, String.singleton c)] ++ Stretch.shown lineAt (place + 1) cs) :=
      ih hc fun _ => rfl
    rwa [← hadd, List.append_assoc, List.singleton_append] at hcs

theorem leading_text_append (fs : List (Int × Fragment)) :
    Fragment.leading ((Stretch.text place cs).map (fun s => (lineAt s.start, s.fragment)) ++ fs) =
      Stretch.shown lineAt place cs ++ Fragment.leading fs := by
  induction cs generalizing place with
  | nil => rfl
  | cons c cs ih => simp [Stretch.text, Stretch.shown, ih]

theorem tagsAndTexts_text_append (fs : List (Int × Fragment)) :
    Fragment.tagsAndTexts
        ((Stretch.text place cs).map (fun s => (lineAt s.start, s.fragment)) ++ fs) =
      Fragment.tagsAndTexts fs := by
  induction cs generalizing place with
  | nil => rfl
  | cons c cs ih => simp [Stretch.text, Fragment.tagsAndTexts, ih]

theorem tag_of_ofCode {marker code : String} {tag : Tag}
    (h : Tag.ofCode line marker code = .ok tag) :
    tag = ⟨Code.classify code, line, marker, code⟩ := by
  unfold Tag.ofCode at h
  dsimp only at h
  split at h <;> cases h
  rfl

theorem Gathers.tokens_eq (h : Gathers lineAt ps ss) (hp : pending.Holds texts)
    (ht : Token.ofPieces pending ps = .ok tokens) :
    tokens =
      Fragment.joined (texts ++ Fragment.leading (ss.map fun s => (lineAt s.start, s.fragment))) ++
        Fragment.tagsAndTexts (ss.map fun s => (lineAt s.start, s.fragment)) := by
  induction h generalizing pending texts tokens with
  | nil =>
    cases ht
    simp [hp.toTokens, Fragment.tagsAndTexts]
  | @text line cs place ps ss hl _ ih =>
    rw [List.map_append, leading_text_append, tagsAndTexts_text_append, ← List.append_assoc]
    exact ih (hp.add_text hl) ht
  | @quotation cs start stop ps ss _ ih =>
    have hshown : ("<%" ++ String.ofList cs ++ "%>").toList = '<' :: '%' :: cs ++ ['%', '>'] := by
      simp
    rw [Token.ofPieces, ← hshown] at ht
    have := ih (hp.add (by simp) (lineAt start)) ht
    rw [List.append_assoc] at this
    exact this
  | @tag marker code start stop ps ss _ ih =>
    rw [Token.ofPieces] at ht
    -- A comment adds nothing, and the text goes on behind it.
    split at ht
    · next hm =>
      have := ih hp ht
      simpa [Piece.toFragment, hm, Fragment.tagsAndTexts] using this
    · next hm =>
      obtain ⟨tag, htag, ht⟩ := bind_eq_ok.1 ht
      obtain ⟨more, hmore, ht⟩ := bind_eq_ok.1 ht
      cases ht
      have := ih Pending.holds_empty hmore
      simp [hp.toTokens, tag_of_ofCode htag, this, Piece.toFragment, hm, Fragment.tagsAndTexts]

end

theorem Piece.cases_of_read {line : Int} {cs : List Char} {piece : Piece} {n : Nat}
    (h : read line cs = some (piece, n)) :
    (∃ q, piece = .quotation line q) ∨ ∃ marker code, piece = .tag line marker code := by
  unfold read at h
  split at h
  · cases h
    exact .inl ⟨_, rfl⟩
  · obtain ⟨q, -, he⟩ := Option.map_eq_some_iff.1 h
    cases he
    exact .inl ⟨_, rfl⟩
  · split at h <;> obtain ⟨⟨code, m⟩, -, he⟩ := Option.map_eq_some_iff.1 h <;> cases he <;>
      exact .inr ⟨_, _, rfl⟩
  · cases h

def lineAt (source : List Char) (line : Int) (place : Nat) : Int :=
  lineBehind line (source.take place)

theorem lineAt_append (front cs : List Char) (line : Int) :
    lineAt (front ++ cs) line front.length = lineBehind line front := by
  rw [lineAt, List.take_left]

theorem Piece.Splits.gathers {front cs : List Char} {line l : Int} {ps : List Piece}
    (h : Splits l cs ps) (hl : l = lineBehind line front) :
    Gathers (lineAt (front ++ cs) line) ps (Stretch.scan 0 front.length cs) := by
  induction h generalizing front with
  | nil => exact .nil
  | @text l cs rest ps hcs hi hr _ ih =>
    rw [Stretch.scan_text hi hr]
    refine .text (fun _ => ?_) ?_
    · rw [lineAt_append, hl]
    · rw [← List.append_assoc, ← List.length_append]
      exact ih (by rw [hl, Code.Lexed.lineBehind_append])
  | @opening l cs rest piece ps hr _ ih =>
    rw [Stretch.scan_opening hr]
    have hlength : (front ++ '<' :: '%' :: cs).length = front.length + 2 + cs.length := by
      simp only [List.length_append, List.length_cons]
      omega
    have hrest : Gathers (lineAt (front ++ ('<' :: '%' :: cs ++ rest)) line) ps
        (Stretch.scan 0 (front.length + 2 + cs.length) rest) := by
      rw [← hlength, ← List.append_assoc]
      exact ih (by rw [hl, Code.Lexed.lineBehind_append, lineBehind_opening])
    have hline : l = lineAt (front ++ ('<' :: '%' :: cs ++ rest)) line front.length := by
      rw [lineAt_append, hl]
    obtain ⟨q, rfl⟩ | ⟨marker, code, rfl⟩ := cases_of_read hr
    · rw [hline]
      exact .quotation hrest
    · rw [hline]
      exact .tag hrest

end EmbeddedTemplate.Template
