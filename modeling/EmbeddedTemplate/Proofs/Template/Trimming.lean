import EmbeddedTemplate.Proofs.Template.Blocks
import EmbeddedTemplate.Proofs.Template.Layout
import Mathlib.Data.List.TakeWhile

/-!
What trimming takes away: of every tag or comment that stands alone on its line, the indentation in
front of it and what is left of the line behind it, the line break included. Everything else stays.
-/

namespace EmbeddedTemplate.Template

open Code.Lexed (lineBehind)
open Piece (isIndent isTail Splits Opens)

def Fragment.isMarkup : Fragment → Bool
  | .tag _ _ | .comment _ => true
  | _ => false

namespace Stretch

def lineFront (source : List Char) (place : Nat) : List Char :=
  ((source.take place).reverse.takeWhile (· ≠ '\n')).reverse

def lineRest (source : List Char) (place : Nat) : List Char :=
  (source.drop place).takeWhile (· ≠ '\n')

structure Alone (source : List Char) (t : Stretch) : Prop where
  markup : t.fragment.isMarkup
  front : ∀ c ∈ lineFront source t.start, isIndent c
  rest : ∀ c ∈ lineRest source t.stop, isTail c

/-- The place is in the indentation, or in the rest of the line or its line break. -/
def Sweeps (source : List Char) (t : Stretch) (place : Nat) : Prop :=
  (t.start - (lineFront source t.start).length ≤ place ∧ place < t.start) ∨
    (t.stop ≤ place ∧ place ≤ t.stop + (lineRest source t.stop).length)

def Kept (source : List Char) (all : List Stretch) (place : Nat) : Prop :=
  ∀ t ∈ all, t.Alone source → ¬ t.Sweeps source place

instance (source : List Char) (t : Stretch) : Decidable (t.Alone source) :=
  -- Searching the lists: deciding a property of all their characters would try every character.
  decidable_of_iff (t.fragment.isMarkup ∧ (lineFront source t.start).all isIndent ∧
      (lineRest source t.stop).all isTail)
    ⟨fun ⟨hm, hf, hr⟩ => ⟨hm, List.all_eq_true.1 hf, List.all_eq_true.1 hr⟩,
      fun ⟨hm, hf, hr⟩ => ⟨hm, List.all_eq_true.2 hf, List.all_eq_true.2 hr⟩⟩

instance (source : List Char) (t : Stretch) (place : Nat) : Decidable (t.Sweeps source place) :=
  inferInstanceAs (Decidable (_ ∨ _))

instance (source : List Char) (all : List Stretch) (place : Nat) :
    Decidable (Kept source all place) := inferInstanceAs (Decidable (∀ t ∈ all, _))

def trimmed (source : List Char) (all : List Stretch) : List Stretch :=
  all.filter fun s => Kept source all s.start

variable {source front cs ks rest : List Char} {all done ss : List Stretch} {t s : Stretch}
variable {place n m : Nat} {c : Char} {line : Int} {ps : List Piece} {piece : Piece}

theorem lineFront_append (front cs : List Char) : lineFront (front ++ cs) front.length =
    (front.reverse.takeWhile (· ≠ '\n')).reverse := by
  rw [lineFront, List.take_left]

theorem lineRest_append (front cs : List Char) :
    lineRest (front ++ cs) front.length = cs.takeWhile (· ≠ '\n') := by
  rw [lineRest, List.drop_left]

theorem Alone.isIndent_of_front (ha : t.Alone source) (hc : source[place]? = some c)
    (hl : t.start - (lineFront source t.start).length ≤ place) (hp : place < t.start) :
    isIndent c := by
  refine ha.front c ?_
  obtain ⟨before, hb⟩ : lineFront source t.start <:+ source.take t.start := by
    rw [lineFront, ← List.reverse_prefix, List.reverse_reverse]
    exact List.takeWhile_prefix _
  have hlen := congrArg List.length hb
  rw [List.length_append, List.length_take] at hlen
  have hc' : (source.take t.start)[place]? = some c := by rw [List.getElem?_take_of_lt hp, hc]
  rw [← hb, List.getElem?_append_right (by omega)] at hc'
  exact List.mem_of_getElem? hc'

theorem Alone.isTail_of_rest (ha : t.Alone source) (hc : source[place]? = some c)
    (hl : t.stop ≤ place) (hp : place ≤ t.stop + (lineRest source t.stop).length) :
    isTail c ∨ c = '\n' := by
  have hd : (source.drop t.stop)[place - t.stop]? = some c := by
    rw [List.getElem?_drop, Nat.add_sub_cancel' hl, hc]
  rw [← List.takeWhile_append_dropWhile (p := (· ≠ '\n')) (l := source.drop t.stop)] at hd
  obtain hp | hp := Nat.lt_or_eq_of_le hp
  · rw [List.getElem?_append_left (by rw [lineRest] at hp; omega)] at hd
    exact .inl (ha.rest c (List.mem_of_getElem? hd))
  · -- The place behind the rest of the line is the line break.
    rw [List.getElem?_append_right (by rw [lineRest] at hp; omega),
      show place - t.stop - _ = 0 by rw [lineRest] at hp; omega, ← List.head?_eq_getElem?] at hd
    have := List.head?_dropWhile_not (fun c : Char => decide (c ≠ '\n')) (source.drop t.stop)
    rw [hd] at this
    simp at this
    exact .inr this

theorem Alone.blank_of_sweeps (ha : t.Alone source) (hs : t.Sweeps source place)
    (hc : source[place]? = some c) : isTail c ∨ c = '\n' := by
  obtain ⟨hl, hp⟩ | ⟨hl, hp⟩ := hs
  · exact .inl (by simp [isTail, ha.isIndent_of_front hc hl hp])
  · exact ha.isTail_of_rest hc hl hp

theorem kept_of_opening (h : source[place]? = some '<') : Kept source all place := by
  intro t _ ha hs
  exact absurd (ha.blank_of_sweeps hs h) (by decide)

theorem bounds_of_mem_scan (h : s ∈ scan n place cs) : place ≤ s.start ∧ s.start < s.stop := by
  fun_induction scan n place cs with
  | case1 => cases h
  | case2 n place c cs ih => exact (ih h).imp_left (by omega)
  | case3 => cases h
  | case4 place cs piece n hr ih =>
    obtain rfl | h := List.mem_cons.1 h
    · exact ⟨Nat.le_refl _, by show place < place + 2 + n; omega⟩
    · exact (ih h).imp_left (by omega)
  | case5 place c cs hne ih =>
    obtain rfl | h := List.mem_cons.1 h
    · exact ⟨Nat.le_refl _, Nat.lt_succ_self _⟩
    · exact (ih h).imp_left (by omega)

theorem mem_text (h : s ∈ text place cs) : s.fragment.isMarkup = false ∧
    place ≤ s.start ∧ s.stop ≤ place + cs.length ∧ s.start < s.stop := by
  induction cs generalizing place with
  | nil => cases h
  | cons c cs ih =>
    rw [List.length_cons]
    obtain rfl | h := List.mem_cons.1 h
    · exact ⟨rfl, Nat.le_refl _, by show place + 1 ≤ _; omega, Nat.lt_succ_self _⟩
    · obtain ⟨hm, hl, hr, hlt⟩ := ih h
      exact ⟨hm, by omega, by omega, hlt⟩

theorem filter_text_of_kept (h : ∀ i < cs.length, Kept source all (place + i)) :
    (text place cs).filter (fun s => Kept source all s.start) = text place cs := by
  refine List.filter_eq_self.2 fun s hs => decide_eq_true ?_
  obtain ⟨-, hl, hr, hlt⟩ := mem_text hs
  have := h (s.start - place) (by omega)
  rwa [Nat.add_sub_cancel' hl] at this

theorem filter_text_of_not_kept (h : ∀ i < cs.length, ¬ Kept source all (place + i)) :
    (text place cs).filter (fun s => Kept source all s.start) = [] := by
  refine List.filter_eq_nil_iff.2 fun s hs => ?_
  obtain ⟨-, hl, hr, hlt⟩ := mem_text hs
  have := h (s.start - place) (by omega)
  rw [Nat.add_sub_cancel' hl] at this
  simpa using this

theorem filter_text_append (as bs ds : List Char)
    (h : ∀ i < (as ++ (bs ++ ds)).length, Kept source all (place + i) ↔
      as.length ≤ i ∧ i < as.length + bs.length) :
    (text place (as ++ (bs ++ ds))).filter (fun s => Kept source all s.start) =
      text (place + as.length) bs := by
  simp only [List.length_append] at h
  rw [text_append, text_append, List.filter_append, List.filter_append, filter_text_of_not_kept,
    filter_text_of_kept, filter_text_of_not_kept, List.append_nil, List.nil_append]
  · intro i hi
    rw [Nat.add_assoc, Nat.add_assoc, h _ (by omega)]
    omega
  · intro i hi
    rw [Nat.add_assoc, h _ (by omega)]
    omega
  · intro i hi
    rw [h _ (by omega)]
    omega

end Stretch

namespace Piece

variable {line : Int} {cs ks rest front : List Char} {c : Char} {n : Nat} {piece : Piece}
variable {ps : List Piece}

theorem last_of_readCode {code : List Char} (h : readCode cs = some (code, n)) :
    (cs.take n).getLast? = some '>' := by
  fun_induction readCode cs generalizing code n with
  | case1 cs ih | case3 c cs _ _ ih =>
    obtain ⟨⟨inner, m⟩, hr, he⟩ := Option.map_eq_some_iff.1 h
    cases he
    simp [List.getLast?_cons, ih hr]
  | case2 cs =>
    cases h
    rfl
  | case4 => cases h

theorem last_of_readQuotation {code : List Char} (h : readQuotation cs = some code) :
    (cs.take (code.length + 2)).getLast? = some '>' := by
  fun_induction readQuotation cs generalizing code with
  | case1 cs =>
    cases h
    rfl
  | case2 c cs _ ih =>
    obtain ⟨inner, hr, rfl⟩ := Option.map_eq_some_iff.1 h
    simp [List.getLast?_cons, ih hr]
  | case3 => cases h

theorem last_of_read (h : read line (cs ++ rest) = some (piece, cs.length)) :
    cs.getLast? = some '>' := by
  suffices ∀ all n, read line all = some (piece, n) → (all.take n).getLast? = some '>' by
    simpa using this _ _ h
  intro all n h
  unfold read at h
  split at h
  · cases h
    rfl
  · obtain ⟨q, hq, he⟩ := Option.map_eq_some_iff.1 h
    cases he
    simp [List.getLast?_cons, last_of_readQuotation hq]
  · split at h <;> obtain ⟨⟨code, m⟩, hc, he⟩ := Option.map_eq_some_iff.1 h <;> cases he
    · simp [List.getLast?_cons, last_of_readCode hc]
    · exact last_of_readCode hc
  · cases h

theorem takeWhile_eq_take (p : Char → Bool) (xs ys : List Char) :
    xs.takeWhile p = ((xs ++ ys).takeWhile p).take xs.length := by
  induction xs with
  | nil => rfl
  | cons x xs ih =>
    by_cases hx : p x
    · simp [hx, ← ih]
    · simp [hx]

theorem blankAfter_eq (front cs : List Char) :
    blankAfter ((front.reverse.takeWhile (· ≠ '\n')).all isIndent) cs =
      ((front ++ cs).reverse.takeWhile (· ≠ '\n')).all isIndent := by
  induction cs generalizing front with
  | nil => simp [blankAfter]
  | cons c cs ih =>
    have := ih (front ++ [c])
    rw [List.append_assoc, List.singleton_append] at this
    rw [← this, blankAfter, List.foldl_cons, blankAfter]
    congr 1
    rw [List.reverse_append, List.reverse_singleton, List.singleton_append]
    by_cases hc : c = '\n'
    · simp [hc]
    · simp [hc, Bool.and_comm]

theorem exists_line (cs : List Char) :
    '\n' ∉ cs ∨ ∃ first more, cs = first ++ '\n' :: more ∧ '\n' ∉ first := by
  by_cases h : '\n' ∈ cs
  · exact .inr (List.eq_append_cons_of_mem h)
  · exact .inl h

theorem takeWhile_line (h : '\n' ∉ cs) (rest : List Char) :
    (cs ++ rest).takeWhile (· ≠ '\n') = cs ++ rest.takeWhile (· ≠ '\n') :=
  List.takeWhile_append_of_pos fun c hc => by simpa using fun heq : c = '\n' => h (heq ▸ hc)

theorem Splits.nil_iff (h : Splits line cs ps) (ho : Opens cs) : ps = [] ↔ cs = [] := by
  cases h with
  | nil => simp
  | text hne => simp [hne]
  | opening => simp

theorem Splits.endsLine_eq (h : Splits line cs ps) :
    endsLine ps = (cs.takeWhile (· ≠ '\n')).all isTail := by
  cases h with
  | nil => rfl
  | @text _ cs rest ps _ _ hr h =>
    rw [endsLine]
    obtain hn | ⟨first, more, rfl, hn⟩ := exists_line cs
    · have hcs := takeWhile_line hn []
      rw [List.append_nil] at hcs
      rw [takeWhile_line hn, hcs]
      have := h.nil_iff hr
      obtain rfl | ⟨more, rfl⟩ := hr
      · simp [hn, this]
      · simp [hn, this, isTail, isIndent]
    · rw [List.append_assoc, takeWhile_line hn, takeWhile_line hn]
      simp
  | @opening _ cs rest piece ps hr _ =>
    obtain ⟨q, rfl⟩ | ⟨marker, code, rfl⟩ := cases_of_read hr <;> rfl

theorem dropLine_append (line : Int) (h : '\n' ∉ ks) (more : List Char) :
    dropLine line (ks ++ '\n' :: more) = (line + 1, more) := by
  rw [dropLine, List.dropWhile_append_of_pos]
  · rfl
  · exact fun c hc => by simpa using fun heq : c = '\n' => h (heq ▸ hc)

theorem dropLine_of_not_mem (line : Int) (h : '\n' ∉ cs) : dropLine line cs = (line, []) := by
  have hd : cs.dropWhile (· ≠ '\n') = [] := List.dropWhile_eq_nil_iff.2 fun c hc => by
    simpa using fun heq : c = '\n' => h (heq ▸ hc)
  rw [dropLine, hd]

theorem exists_dropLine (line : Int) (cs rest : List Char) : ∃ dropped,
    cs = dropped ++ (dropLine line cs).2 ∧
    dropped.length = min cs.length (((cs ++ rest).takeWhile (· ≠ '\n')).length + 1) ∧
    ((dropLine line cs).2 ≠ [] → (dropLine line cs).1 = lineBehind line dropped) := by
  obtain hn | ⟨first, more, rfl, hn⟩ := exists_line cs
  · rw [dropLine_of_not_mem line hn, takeWhile_line hn]
    refine ⟨cs, by simp, ?_, by simp⟩
    rw [List.length_append]
    omega
  · rw [dropLine_append line hn, List.append_assoc, takeWhile_line hn]
    refine ⟨first ++ ['\n'], by simp, by simp, fun _ => ?_⟩
    simp [lineBehind, List.count_eq_zero_of_not_mem hn]

theorem takeWhile_isIndent (h : ∀ c ∈ cs.takeWhile (· ≠ '\n'), isIndent c) :
    cs.takeWhile isIndent = cs.takeWhile (· ≠ '\n') := by
  induction cs with
  | nil => rfl
  | cons c cs ih =>
    by_cases hc : c = '\n'
    · subst hc
      rfl
    · have htake : (c :: cs).takeWhile (· ≠ '\n') = c :: cs.takeWhile (· ≠ '\n') := by simp [hc]
      rw [htake, List.forall_mem_cons] at h
      rw [htake, List.takeWhile_cons, if_pos h.1, ih h.2]

theorem exists_dropIndent (front ks : List Char)
    (h : ∀ c ∈ (ks.reverse ++ front).takeWhile (· ≠ '\n'), isIndent c) :
    ∃ blanks, ks = dropIndent ks ++ blanks ∧
      blanks.length = min ks.length ((ks.reverse ++ front).takeWhile (· ≠ '\n')).length := by
  refine ⟨(ks.reverse.takeWhile isIndent).reverse, ?_, ?_⟩
  · rw [dropIndent, ← List.reverse_append, List.takeWhile_append_dropWhile, List.reverse_reverse]
  · have htake := takeWhile_eq_take (· ≠ '\n') ks.reverse front
    rw [List.length_reverse, takeWhile_isIndent fun c hc => h c (List.mem_of_mem_take (htake ▸ hc)),
      htake, List.length_take, List.length_reverse]

end Piece

@[simp] theorem Piece.isMarkup_tag (line : Int) (marker : Option Char) (code : List Char) :
    (Piece.tag line marker code).toFragment.isMarkup = true := by
  rw [toFragment]
  split <;> rfl

@[simp] theorem Piece.isMarkup_quotation (line : Int) (cs : List Char) :
    (Piece.quotation line cs).toFragment.isMarkup = false := rfl

open Stretch

/--
The state of trimming between two pieces: what stands in front is laid out, and the flags say that
the line is blank so far, and that what stands alone on it ends here.
-/
structure Reached (source : List Char) (all : List Stretch) (front cs : List Char)
    (done : List Stretch) (blank alone : Bool) : Prop where
  source_eq : source = front ++ cs
  all_eq : all = done ++ Stretch.scan 0 front.length cs
  behind : ∀ t ∈ done, t.start ≤ front.length ∧ t.stop ≤ front.length
  apart : Opens cs ∨ front = [] ∨ front.getLast? = some '>'
  blank_eq : blank = (lineFront source front.length).all isIndent
  alone_iff : alone ↔ ∃ t ∈ done, t.Alone source ∧ t.stop = front.length

namespace Reached

variable {source front cs ks rest : List Char} {all done ss : List Stretch} {t s : Stretch}
variable {place n m : Nat} {c : Char} {line l : Int} {ps : List Piece} {piece : Piece}
variable {blank alone : Bool}

theorem start (source : List Char) :
    Reached source (Stretch.scan 0 0 source) [] source [] true false where
  source_eq := rfl
  all_eq := rfl
  behind := nofun
  apart := .inr (.inl rfl)
  blank_eq := by simp [lineFront]
  alone_iff := by simp

theorem text (h : Reached source all front (cs ++ rest) done blank alone) (hcs : cs ≠ [])
    (hi : ¬ ['<', '%'] <:+: cs) (hr : Opens rest) :
    Reached source all (front ++ cs) rest (done ++ Stretch.text front.length cs)
      (Piece.blankAfter blank cs) false where
  source_eq := by rw [h.source_eq, List.append_assoc]
  all_eq := by rw [h.all_eq, scan_text hi hr, List.append_assoc, List.length_append]
  behind := by
    intro t ht
    rw [List.length_append]
    obtain ht | ht := List.mem_append.1 ht
    · have := h.behind t ht
      omega
    · obtain ⟨-, -, hstop, hlt⟩ := mem_text ht
      omega
  apart := .inl hr
  blank_eq := by
    rw [h.blank_eq, h.source_eq, lineFront_append, List.all_reverse, Piece.blankAfter_eq,
      ← List.append_assoc, lineFront_append, List.all_reverse]
  alone_iff := by
    refine iff_of_false nofun ?_
    rintro ⟨t, ht, ha, hstop⟩
    have := List.length_pos_of_ne_nil hcs
    rw [List.length_append] at hstop
    obtain ht | ht := List.mem_append.1 ht
    · have := h.behind t ht
      omega
    · have := ha.markup
      rw [(mem_text ht).1] at this
      cases this

theorem alone_opening_iff (h : Reached source all front ('<' :: '%' :: cs ++ rest) done blank alone)
    (hs : Splits line rest ps) : piece.toFragment.isMarkup && blank && Piece.endsLine ps ↔
      Alone source ⟨front.length, front.length + 2 + cs.length, piece.toFragment⟩ := by
  have hrest : lineRest source (front.length + 2 + cs.length) = rest.takeWhile (· ≠ '\n') := by
    have hstop : front.length + 2 + cs.length = (front ++ '<' :: '%' :: cs).length := by
      simp only [List.length_append, List.length_cons]
      omega
    rw [hstop, h.source_eq, ← List.append_assoc, lineRest_append]
  rw [hs.endsLine_eq, h.blank_eq, ← hrest, Bool.and_eq_true, Bool.and_eq_true, List.all_eq_true,
    List.all_eq_true]
  exact ⟨fun ⟨⟨hm, hf⟩, hr⟩ => ⟨hm, hf, hr⟩, fun ⟨hm, hf, hr⟩ => ⟨⟨hm, hf⟩, hr⟩⟩

theorem opening (h : Reached source all front ('<' :: '%' :: cs ++ rest) done blank alone)
    (hs : Splits l rest ps) (hr : Piece.read line (cs ++ rest) = some (piece, cs.length)) :
    Reached source all (front ++ '<' :: '%' :: cs) rest
      (done ++ [⟨front.length, front.length + 2 + cs.length, piece.toFragment⟩]) false
      (piece.toFragment.isMarkup && blank && Piece.endsLine ps) where
  source_eq := by rw [h.source_eq, List.append_assoc]
  all_eq := by
    rw [h.all_eq, scan_opening hr, List.append_assoc, List.length_append, List.length_cons,
      List.length_cons,
      show front.length + (cs.length + 1 + 1) = front.length + 2 + cs.length by omega]
    rfl
  behind := by
    intro t ht
    rw [List.length_append]
    obtain ht | ht := List.mem_append.1 ht
    · have := h.behind t ht
      omega
    · rw [List.mem_singleton.1 ht]
      simp only [List.length_cons]
      omega
  apart := by simp [List.getLast?_append, List.getLast?_cons, Piece.last_of_read hr]
  blank_eq := by
    obtain ⟨body, rfl⟩ := List.getLast?_eq_some_iff.1 (Piece.last_of_read hr)
    rw [h.source_eq, ← List.append_assoc, lineFront_append]
    simp [isIndent]
  alone_iff := by
    rw [h.alone_opening_iff hs]
    constructor
    · intro ha
      refine ⟨_, List.mem_append_right _ (List.mem_singleton_self _), ha, ?_⟩
      simp only [List.length_append, List.length_cons]
      omega
    · rintro ⟨t, ht, ha, hts⟩
      obtain ht | ht := List.mem_append.1 ht
      · have := h.behind t ht
        simp only [List.length_append, List.length_cons] at hts
        omega
      · rwa [List.mem_singleton.1 ht] at ha

theorem startsAlone_iff (h : Reached source all front cs done blank alone)
    (hs : Splits line cs ps) : Piece.startsAlone blank ps ↔
      ∃ t ∈ Stretch.scan 0 front.length cs, t.Alone source ∧ t.start = front.length := by
  cases hs with
  | nil => exact iff_of_false nofun (by rintro ⟨t, ht, -⟩; cases ht)
  | @text _ cs rest ps hcs hi hr _ =>
    refine iff_of_false nofun ?_
    rintro ⟨t, ht, ha, hstart⟩
    rw [scan_text hi hr] at ht
    obtain ht | ht := List.mem_append.1 ht
    · have := ha.markup
      rw [(mem_text ht).1] at this
      cases this
    · have := bounds_of_mem_scan ht
      have := List.length_pos_of_ne_nil hcs
      omega
  | @opening _ cs rest piece ps hr hs =>
    have hstarts : Piece.startsAlone blank (piece :: ps) =
        (piece.toFragment.isMarkup && blank && Piece.endsLine ps) := by
      obtain ⟨q, rfl⟩ | ⟨marker, code, rfl⟩ := Piece.cases_of_read hr
      · rfl
      · rw [Piece.startsAlone, Piece.isMarkup_tag, Bool.true_and]
    rw [hstarts, h.alone_opening_iff hs, scan_opening hr]
    constructor
    · exact fun ha => ⟨_, List.mem_cons_self, ha, rfl⟩
    · rintro ⟨t, ht, ha, hstart⟩
      obtain rfl | ht := List.mem_cons.1 ht
      · exact ha
      · have := bounds_of_mem_scan ht
        omega

theorem stop_of_sweeps (h : Reached source all front cs done blank alone) (hcs : cs ≠ [])
    (ht : t ∈ done) (ha : t.Alone source) (hs : t.Sweeps source place) (hp : front.length ≤ place) :
    t.stop = front.length ∧ place ≤ front.length + (lineRest source front.length).length := by
  obtain ⟨hstart, hstop⟩ := h.behind t ht
  obtain ⟨hl, hr⟩ := hs.resolve_left (by omega)
  suffices t.stop = front.length by
    rw [this] at hr
    exact ⟨this, hr⟩
  obtain ho | rfl | hlast := h.apart
  · obtain rfl | ⟨more, rfl⟩ := ho
    · exact absurd rfl hcs
    · have hc : source[front.length]? = some '<' := by rw [h.source_eq]; simp
      exact absurd (ha.isTail_of_rest hc hstop (by omega)) (by decide)
  · simpa using hstop
  · by_contra hne
    obtain ⟨before, rfl⟩ := List.getLast?_eq_some_iff.1 hlast
    rw [List.length_append, List.length_singleton] at hstop hne hp
    have hc : source[before.length]? = some '>' := by rw [h.source_eq]; simp
    exact absurd (ha.isTail_of_rest hc (by omega) (by omega)) (by decide)

theorem start_of_sweeps (h : Reached source all front cs done blank alone) (ho : Opens cs)
    (ht : t ∈ Stretch.scan 0 front.length cs) (ha : t.Alone source) (hs : t.Sweeps source place)
    (hp : place < front.length) :
    t.start = front.length ∧ front.length ≤ place + (lineFront source front.length).length := by
  obtain ⟨hstart, hlt⟩ := bounds_of_mem_scan ht
  obtain ⟨hl, hr⟩ := hs.resolve_right (by omega)
  suffices t.start = front.length by
    rw [this] at hl
    exact ⟨this, by omega⟩
  obtain rfl | ⟨more, rfl⟩ := ho
  · cases ht
  · by_contra hne
    have hc : source[front.length]? = some '<' := by rw [h.source_eq]; simp
    exact absurd (ha.isIndent_of_front hc (by omega) (by omega)) (by decide)

theorem kept_text_iff (h : Reached source all front (cs ++ rest) done blank alone) (hcs : cs ≠ [])
    (hi : ¬ ['<', '%'] <:+: cs) (hr : Opens rest) (hs : Splits line rest ps) {i : Nat}
    (hlt : i < cs.length) : Kept source all (front.length + i) ↔
      ¬ (alone ∧ i ≤ (lineRest source front.length).length) ∧
      ¬ (Piece.startsAlone (Piece.blankAfter blank cs) ps ∧
        cs.length ≤ i + (lineFront source (front ++ cs).length).length) := by
  have h' := h.text hcs hi hr
  have hlen : (front ++ cs).length = front.length + cs.length := List.length_append
  rw [h.alone_iff, h'.startsAlone_iff hs]
  constructor
  · intro hk
    constructor
    · rintro ⟨⟨t, ht, ha, hstop⟩, hle⟩
      refine hk t (by rw [h.all_eq]; exact List.mem_append_left _ ht) ha (.inr ?_)
      rw [hstop]
      omega
    · rintro ⟨⟨t, ht, ha, hstart⟩, hle⟩
      refine hk t (by rw [h'.all_eq]; exact List.mem_append_right _ ht) ha (.inl ?_)
      rw [hstart]
      omega
  · rintro ⟨hfront, hbehind⟩ t ht ha hsweeps
    rw [h'.all_eq] at ht
    obtain ht | ht := List.mem_append.1 ht
    · obtain ht | ht := List.mem_append.1 ht
      · obtain ⟨hstop, hle⟩ := h.stop_of_sweeps (by simp [hcs]) ht ha hsweeps (Nat.le_add_right _ _)
        exact hfront ⟨⟨t, ht, ha, hstop⟩, by omega⟩
      · have := ha.markup
        rw [(mem_text ht).1] at this
        cases this
    · obtain ⟨hstart, hle⟩ := h'.start_of_sweeps hr ht ha hsweeps (by omega)
      exact hbehind ⟨⟨t, ht, ha, hstart⟩, by omega⟩

theorem exists_dropped (h : Reached source all front (cs ++ rest) done blank alone) (l : Int) :
    let left := if alone then Piece.dropLine l cs else (l, cs)
    ∃ dropped, cs = dropped ++ left.2 ∧
      dropped.length =
        (if alone then min cs.length ((lineRest source front.length).length + 1) else 0) ∧
      (left.2 ≠ [] → left.1 = lineBehind l dropped) := by
  cases alone with
  | false => exact ⟨[], rfl, rfl, fun _ => (Code.Lexed.lineBehind_nil l).symm⟩
  | true =>
    rw [h.source_eq, lineRest_append]
    exact Piece.exists_dropLine l cs rest

theorem exists_blanks (h : Reached source all front rest done blank alone) (hs : Splits l rest ps)
    (hks : front = cs ++ ks) : ∃ blanks,
      ks = (if Piece.startsAlone blank ps then Piece.dropIndent ks else ks) ++ blanks ∧
      blanks.length = if Piece.startsAlone blank ps then
        min ks.length (lineFront source front.length).length else 0 := by
  split
  · next hs' =>
    have hfront : lineFront source front.length =
        ((ks.reverse ++ cs.reverse).takeWhile (· ≠ '\n')).reverse := by
      rw [h.source_eq, lineFront_append, hks, List.reverse_append]
    obtain ⟨t, -, ha, hstart⟩ := (h.startsAlone_iff hs).1 hs'
    have hblank := ha.front
    rw [hstart, hfront] at hblank
    rw [hfront, List.length_reverse]
    exact Piece.exists_dropIndent _ _ fun c hc => hblank c (List.mem_reverse.2 hc)
  · exact ⟨[], by simp, rfl⟩

theorem exists_filter_text (h : Reached source all front (cs ++ rest) done blank alone)
    (hcs : cs ≠ []) (hi : ¬ ['<', '%'] <:+: cs) (hr : Opens rest)
    (hs : Splits (lineBehind l cs) rest ps) (hl : l = lineBehind line front) :
    let left := if alone then Piece.dropLine l cs else (l, cs)
    let kept := if Piece.startsAlone (Piece.blankAfter blank cs) ps then Piece.dropIndent left.2
      else left.2
    ∃ place, (Stretch.text front.length cs).filter (fun s => Kept source all s.start) =
      Stretch.text place kept ∧ (kept ≠ [] → left.1 = lineAt source line place) := by
  intro left kept
  have h' := h.text hcs hi hr
  obtain ⟨dropped, hdropped, hdlen, hline⟩ := h.exists_dropped l
  have hks : front ++ cs = front ++ dropped ++ left.2 := by rw [List.append_assoc, ← hdropped]
  obtain ⟨blanks, hblanks, hblen⟩ := h'.exists_blanks hs hks
  have hlen := congrArg List.length hdropped
  have hlen' := congrArg List.length hblanks
  rw [List.length_append] at hlen hlen'
  change left.2 = kept ++ blanks at hblanks
  change cs.length = dropped.length + left.2.length at hlen
  change left.2.length = kept.length + blanks.length at hlen'
  -- What the tag in front takes is a start of the text, and what the tag behind takes is an end.
  have hkept : ∀ i < cs.length, Kept source all (front.length + i) ↔
      dropped.length ≤ i ∧ i < dropped.length + kept.length := by
    intro i hlt
    rw [h.kept_text_iff hcs hi hr hs hlt]
    by_cases ha : alone = true <;>
      by_cases hs' : Piece.startsAlone (Piece.blankAfter blank cs) ps = true <;>
      simp only [ha, hs', if_true, if_false, true_and, false_and, not_false_eq_true, and_true,
        true_iff, Bool.false_eq_true] at hdlen hblen ⊢ <;> omega
  refine ⟨front.length + dropped.length, ?_, fun hne => ?_⟩
  · have hparts : cs = dropped ++ (kept ++ blanks) := hblanks ▸ hdropped
    rw [hparts] at hkept ⊢
    exact filter_text_append dropped kept blanks hkept
  · have hleft : left.2 ≠ [] := by
      rw [hblanks]
      simp [hne]
    rw [hline hleft, hl, h.source_eq, hdropped, List.append_assoc, ← List.append_assoc front,
      ← List.length_append, lineAt_append, Code.Lexed.lineBehind_append]

end Reached

theorem Piece.Splits.gathers_trim {source front cs : List Char} {all done : List Stretch}
    {blank alone : Bool} {line l : Int} {ps : List Piece} (h : Splits l cs ps)
    (hr : Reached source all front cs done blank alone) (hl : l = lineBehind line front) :
    Gathers (lineAt source line) (Piece.trim blank alone ps)
      ((Stretch.scan 0 front.length cs).filter fun s => Kept source all s.start) := by
  induction h generalizing front done blank alone with
  | nil => exact .nil
  | @text l cs rest ps hcs hi ho hs ih =>
    have := ih (hr.text hcs hi ho) (by rw [hl, Code.Lexed.lineBehind_append])
    obtain ⟨place, hfilter, hline⟩ := hr.exists_filter_text hcs hi ho hs hl
    rw [Stretch.scan_text hi ho, List.filter_append, hfilter]
    rw [List.length_append] at this
    exact .text hline this
  | @opening l cs rest piece ps hread hs ih =>
    have := ih (hr.opening hs hread)
      (by rw [hl, Code.Lexed.lineBehind_append, lineBehind_opening])
    rw [List.length_append, List.length_cons, List.length_cons,
      show front.length + (cs.length + 1 + 1) = front.length + 2 + cs.length by omega] at this
    have hkept : Kept source all front.length := kept_of_opening (by rw [hr.source_eq]; simp)
    have hline : l = lineAt source line front.length := by rw [hr.source_eq, lineAt_append, hl]
    rw [Stretch.scan_opening hread, List.filter_cons_of_pos (by simpa using hkept)]
    obtain ⟨q, rfl⟩ | ⟨marker, code, rfl⟩ := cases_of_read hread
    · rw [hline]
      exact .quotation this
    · rw [hline]
      rw [Piece.isMarkup_tag, Bool.true_and] at this
      exact .tag this

theorem map_ofPieces_trim (p q : Pending) (blank alone : Bool) (ps : List Piece) :
    (Token.ofPieces p (Piece.trim blank alone ps)).map (fun _ => ()) =
      (Token.ofPieces q ps).map fun _ => () := by
  induction ps generalizing p q blank alone with
  | nil => rfl
  | cons piece ps ih =>
    cases piece with
    | text line cs => exact ih _ _ _ _
    | quotation line cs => exact ih _ _ _ _
    | tag line marker code =>
      rw [Piece.trim, Token.ofPieces, Token.ofPieces]
      split
      · exact ih _ _ _ _
      · cases Tag.ofCode line (marker.elim "" String.singleton) (String.ofList code) with
        | error fault => rfl
        | ok tag =>
          have := ih .empty .empty false (blank && Piece.endsLine ps)
          revert this
          rw [ok_bind, ok_bind]
          cases Token.ofPieces .empty (Piece.trim false (blank && Piece.endsLine ps) ps) <;>
            cases Token.ofPieces .empty ps <;> simp [Except.map, bind, Except.bind, pure_eq_ok]

namespace Stretch

variable {source front cs : List Char} {all ss : List Stretch} {s : Stretch} {place n : Nat}

theorem opens_of_mem_scan (h : s ∈ scan n place cs) (ht : s.fragment.isTag) :
    cs[s.start - place]? = some '<' := by
  fun_induction scan n place cs with
  | case1 => cases h
  | case2 n place c cs ih =>
    have := bounds_of_mem_scan h
    rw [show s.start - place = s.start - (place + 1) + 1 by omega, List.getElem?_cons_succ]
    exact ih h
  | case3 => cases h
  | case4 place cs piece n hr ih =>
    obtain rfl | h := List.mem_cons.1 h
    · simp
    · have := bounds_of_mem_scan h
      rw [show s.start - place = s.start - (place + 2) + 2 by omega, List.getElem?_cons_succ,
        List.getElem?_cons_succ]
      exact ih h
  | case5 place c cs hne ih =>
    obtain rfl | h := List.mem_cons.1 h
    · cases ht
    · have := bounds_of_mem_scan h
      rw [show s.start - place = s.start - (place + 1) + 1 by omega, List.getElem?_cons_succ]
      exact ih h

@[simp] theorem tagsOf_joined (texts : List (Int × String)) :
    tagsOf (Fragment.joined texts) = [] := by
  cases texts <;> rfl

theorem tagsOf_tokens (source : List Char) (line : Int) (ss : List Stretch) :
    tagsOf (tokens source line ss) = tagsOf (Fragment.tagsAndTexts (placed source line ss)) := by
  rw [tokens, tagsOf_append, tagsOf_joined, List.nil_append]

theorem tagsOf_tokens_filter {P : Stretch → Bool} (h : ∀ s ∈ ss, s.fragment.isTag → P s)
    (source : List Char) (line : Int) :
    tagsOf (tokens source line (ss.filter P)) = tagsOf (tokens source line ss) := by
  rw [tagsOf_tokens, tagsOf_tokens]
  induction ss with
  | nil => rfl
  | cons s ss ih =>
    obtain ⟨hs, htail⟩ := List.forall_mem_cons.1 h
    obtain ⟨start, stop, fragment⟩ := s
    cases fragment with
    | tag marker code =>
      rw [List.filter_cons_of_pos (hs rfl)]
      simp only [placed, List.map_cons, Fragment.tagsAndTexts, tagsOf_tag, tagsOf_append,
        tagsOf_joined, List.nil_append]
      exact congrArg _ (ih htail)
    | text | comment | quotation =>
      rw [List.filter_cons]
      split <;> exact ih htail

end Stretch

/--
Trimming leaves a template at fault with the fault, and the tokens of a template that has none are
those of its stretches but for the characters that a tag takes with it that stands alone.
-/
theorem tokenize_trim (source : String) (line : Int) :
    let all := Stretch.ofSource source
    let left := Stretch.trimmed source.toList all
    tokenize source line true = (tokenize source line false).map (fun _ =>
      Stretch.tokens source.toList line left) ∧
    (∀ untrimmed, tokenize source line false = .ok untrimmed →
      untrimmed = Stretch.tokens source.toList line all) ∧
    tagsOf (Stretch.tokens source.toList line left) =
      tagsOf (Stretch.tokens source.toList line all) := by
  intro all left
  have hl : line = lineBehind line [] := (Code.Lexed.lineBehind_nil line).symm
  refine ⟨?_, fun untrimmed h => ?_, ?_⟩
  · have hfault := map_ofPieces_trim .empty .empty true false
      (Piece.scan 0 line source.toList).pieces
    have htrimmed := fun hu => (Piece.splits_scan hu).gathers_trim (.start source.toList) hl
    simp only [tokenize, Pieces.ofSource, Bool.false_eq_true, if_false, if_true]
    cases ht : Token.ofPieces .empty
        (Piece.trim true false (Piece.scan 0 line source.toList).pieces) <;>
      cases hp : Token.ofPieces .empty (Piece.scan 0 line source.toList).pieces <;>
      rw [ht, hp] at hfault <;> cases hfault
    · rfl
    · cases hu : (Piece.scan 0 line source.toList).unclosed with
      | some l => rfl
      | none =>
        exact congrArg Except.ok ((htrimmed hu).tokens_eq Pending.holds_empty ht)
  · obtain ⟨htokens, hu⟩ := tokenize_eq_ok.1 h
    exact ((Piece.splits_scan hu).gathers hl).tokens_eq Pending.holds_empty htokens
  · refine Stretch.tagsOf_tokens_filter (fun s hs ht => decide_eq_true ?_) _ _
    have := Stretch.opens_of_mem_scan hs ht
    rw [Nat.sub_zero] at this
    exact Stretch.kept_of_opening this

theorem tokenize_trim_block :
    let source := "a\n\t<%= if x do\n %> \r\n  b\n" ++
      " <%# c %>\n<%%= q %>\n <% c %> <% d %>\n  <% end %> "
    let all := Stretch.ofSource source
    let untrimmed := [.text 3 "a\n\t", .tag ⟨.opening, 4, "=", " if x do\n "⟩,
      .text 5 " \r\n  b\n \n<%= q %>\n ", .tag ⟨.plain, 9, "", " c "⟩, .text 9 " ",
      .tag ⟨.plain, 9, "", " d "⟩, .text 9 "\n  ", .tag ⟨.closing, 10, "", " end "⟩, .text 10 " "]
    let left := [.text 3 "a\n", .tag ⟨.opening, 4, "=", " if x do\n "⟩,
      .text 6 "  b\n<%= q %>\n ", .tag ⟨.plain, 9, "", " c "⟩, .text 9 " ",
      .tag ⟨.plain, 9, "", " d "⟩, .text 9 "\n", .tag ⟨.closing, 10, "", " end "⟩]
    tokenize source 3 false = .ok untrimmed ∧
    untrimmed = Stretch.tokens source.toList 3 all ∧
    tokenize source 3 true = .ok left := by
  intro source all untrimmed left
  obtain ⟨htrim, htokens, -⟩ := tokenize_trim source 3
  have h : tokenize source 3 false = .ok untrimmed := by decide +kernel
  refine ⟨h, htokens _ h, ?_⟩
  rw [htrim, h]
  decide +kernel

end EmbeddedTemplate.Template
