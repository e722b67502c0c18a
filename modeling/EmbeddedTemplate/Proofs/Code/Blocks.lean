import EmbeddedTemplate.Proofs.Code.Printing

namespace EmbeddedTemplate.Code

open Printer
open EmbeddedTemplate.Tree
open scoped Computability

variable {t u : Tree} {ts items args patterns : List Tree} {c : Category}
variable {line : Option Int} {L : Language Token} {name text head : String}
variable {note : Annotation} {place : Place}

/-- What is printed for a body behind the word or the arrow that it belongs to. -/
def Behind (t : Tree) (text : String) : Prop :=
  t = .nil ∧ text = "" ∨ t ≠ .nil ∧ ∃ inner, print .body t = .ok inner ∧ text = "\n" ++ indent inner

def WrittenBody [CharacterNames] (c : Category) (t : Tree) : Prop :=
  ∃ text, Behind t text ∧ Spelled Stops text.toList (runsOf c t)

theorem spelled_indented (h : Spelled Stops text.toList L) :
    Spelled Stops ("\n" ++ indent text).toList L := by
  rw [String.toList_append]
  exact h.indent.lineBreak

theorem Written.asProgram [CharacterNames] (h : Written t) : WrittenBody .program t := by
  by_cases ht : t = .nil
  · subst ht
    exact ⟨"", .inl ⟨rfl, rfl⟩, spelled_nil.mono one_le_program⟩
  · obtain ⟨text, h⟩ := h
    have hp := h.print .body (Nat.zero_le _)
    rw [fit, if_neg (show ¬ownTier t < Place.tier .body from Nat.not_lt_zero _)] at hp
    have hs := h.spelled.mono (runsOf_ofTier_le (Nat.zero_le _))
    rw [ofTier_of_le (Nat.zero_le _)] at hs
    exact ⟨_, .inr ⟨ht, text, hp, rfl⟩, spelled_indented (hs.mono program_le)⟩

theorem Written.asBody [CharacterNames] (h : Written t) : WrittenBody .body t := by
  obtain ⟨text, hb, hs⟩ := h.asProgram
  exact ⟨text, hb, hs.mono body_le⟩

theorem Behind.stops {cs : List Char} (h : Behind t text) (n : Nat) (hs : Stops cs) :
    Stops (shift n text.toList ++ cs) := by
  obtain ⟨-, rfl⟩ | ⟨-, inner, -, rfl⟩ := h
  · exact hs
  · have hbreak : ("\n" ++ indent inner).toList = '\n' :: (indent inner).toList := by simp
    rw [hbreak]
    exact stops_cons (by decide) n

def WrittenClause [CharacterNames] (t : Tree) : Prop := ∃ note args, t = .named "->" args note ∧
  ∃ text, clause args = .ok text ∧ Spelled Stops text.toList (runsOf .clause t)

theorem clause_eq {l : List String} (hl : entries false patterns = .ok l) (hb : Behind u text) :
    clause [.list patterns, u] = .ok (commas l ++ " ->" ++ text) := by
  rw [clause]
  obtain ⟨rfl, rfl⟩ | ⟨hne, inner, hp, rfl⟩ := hb
  · simp [hl]
  · cases u with
    | nil => exact absurd rfl hne
    | _ => simp [hl, hp, ← String.append_assoc]

theorem written_clause [CharacterNames] (hne : patterns ≠ []) (h : ∀ t ∈ patterns, Written t)
    (hu : Written u) :
    WrittenClause (.named "->" [.list patterns, u] ⟨line, none⟩) := by
  obtain ⟨l, hl, -, hs⟩ := listed_patterns hne h
  obtain ⟨text, hbody, hsb⟩ := hu.asProgram
  have harrow : Spelled Stops "->".toList (spelt (.sign .arrow) "->") :=
    (isToken_sign .arrow).spelled nofun
  have hrest := harrow.append hsb fun n _ => hbody.stops n
  have hspelled := hs.stopped hrest.blank (by decide)
  rw [← mul_assoc] at hspelled
  refine ⟨_, _, rfl, _, clause_eq hl hbody, ?_⟩
  simpa using hspelled.mono clause_le

def joined (l : List String) : String := "\n".intercalate l

theorem spelled_joined {M : Language Token} {l : List String} (ht : Spelled Stops text.toList L)
    (hl : Spelled Stops (joined l).toList M) (hne : l ≠ []) :
    Spelled Stops (joined (text :: l)).toList (L * M) := by
  rw [joined, String.intercalate_cons_of_ne_nil hne, ← joined]
  simpa using ht.stopped hl.lineBreak (by decide)

theorem written_clauses [CharacterNames] (hne : items ≠ []) (h : ∀ t ∈ items, WrittenClause t) :
    ∃ l, clauses items = .ok l ∧ l ≠ [] ∧
      Spelled Stops (joined l).toList (runsOfAll .clauses items) := by
  induction items with
  | nil => exact absurd rfl hne
  | cons t items ih =>
    obtain ⟨⟨note, args, rfl, text, hp, hs⟩, hitems⟩ := List.forall_mem_cons.1 h
    by_cases hitems' : items = []
    · subst hitems'
      refine ⟨[text], ?_, List.cons_ne_nil _ _, ?_⟩
      · simp [Tree.named, clauses, hp]
      · rw [joined, String.intercalate_singleton]
        exact hs.mono (singleton_le fun _ _ => .lastClause)
    · obtain ⟨l, hl, hlne, hsl⟩ := ih hitems' hitems
      refine ⟨text :: l, ?_, List.cons_ne_nil _ _,
        (spelled_joined hs hsl hlne).mono clauses_cons_le⟩
      simp [Tree.named, clauses, hp, hl]

theorem writtenBody_clauses [CharacterNames] (hne : items ≠ []) (h : ∀ t ∈ items, WrittenClause t) :
    WrittenBody .body (.list items) := by
  obtain ⟨l, hl, -, hs⟩ := written_clauses hne h
  have hclauses : isClauses items := by
    rw [isClauses, Bool.and_eq_true, List.all_eq_true]
    refine ⟨by simpa using hne, fun t ht => ?_⟩
    obtain ⟨note, args, rfl, -⟩ := h t ht
    rfl
  have hp : print .body (.list items) = .ok (joined l) := by
    rw [print, hclauses, hl]
    rfl
  exact ⟨_, .inr ⟨nofun, _, hp, rfl⟩, spelled_indented (hs.mono clauses_le)⟩

def WrittenPart [CharacterNames] (t : Tree) : Prop := ∃ (w : Word) (u : Tree), w.opensSection ∧
  t = .pair (.atom w.text) u ∧ WrittenBody .body u

theorem sections_cons {l : List String} (label : String) (hb : Behind u text)
    (hl : sections head ts = .ok l) : ∃ lines,
      sections head (.pair (.atom label) u :: ts) = .ok (lines ++ l) ∧
      ∀ more, more ≠ [] → joined (lines ++ more) =
        (if label = "do" then head ++ " do" else label) ++ text ++ "\n" ++ joined more := by
  obtain ⟨rfl, rfl⟩ | ⟨hne, inner, hp, rfl⟩ := hb
  · refine ⟨[if label = "do" then head ++ " do" else label], ?_, fun more hm => ?_⟩
    · rw [sections]
      simp [hl]
    · rw [List.singleton_append, joined, String.intercalate_cons_of_ne_nil hm, joined,
        String.append_empty]
  · refine ⟨[if label = "do" then head ++ " do" else label, indent inner], ?_, fun more hm => ?_⟩
    · rw [sections]
      · simp [hl, hp]
      · exact hne
    · rw [List.cons_append, List.singleton_append, joined, String.intercalate_cons_cons,
        String.intercalate_cons_of_ne_nil hm, joined]
      simp only [String.append_assoc]

theorem written_parts [CharacterNames] (head : String) (h : ∀ t ∈ items, WrittenPart t) : ∃ l,
    sections head items = .ok l ∧
      Spelled Stops (joined (l ++ ["end"])).toList (runsOfAll .parts items) := by
  induction items with
  | nil =>
    refine ⟨[], by rw [sections]; rfl, ?_⟩
    have hend : Spelled Stops "end".toList (spelt (.word .endWord) "end") :=
      (isToken_word .endWord).spelled nofun
    rw [List.nil_append, joined, String.intercalate_singleton]
    exact hend.mono one_le_parts
  | cons t items ih =>
    obtain ⟨⟨w, u, hw, rfl, text, hb, hs⟩, hitems⟩ := List.forall_mem_cons.1 h
    obtain ⟨l, hl, hsl⟩ := ih hitems
    obtain ⟨lines, hlines, hjoined⟩ := sections_cons w.text hb hl
    refine ⟨_, hlines, ?_⟩
    have hlabel : w.text ≠ "do" := by cases w <;> cases hw <;> decide
    have hword : Spelled Stops w.text.toList (spelt (.word w) w.text) :=
      (isToken_word w).spelled nofun
    have hspelled := (hword.append hs fun n _ => hb.stops n).stopped hsl.lineBreak (by decide)
    rw [List.append_assoc, hjoined _ (by simp), if_neg hlabel]
    simpa using hspelled.mono (parts_cons_le hw)

theorem arguments_append (args : List Tree) (t : Tree) :
    arguments 1 (args ++ [t]) = arguments 0 args := by
  induction args with
  | nil =>
    rw [List.nil_append, arguments]
    simp [arguments]
  | cons u args ih =>
    rw [List.cons_append, arguments, arguments, ih]
    simp

theorem lastSections_append (args items : List Tree) (head : String) :
    lastSections head (args ++ [.list items]) = sections head items := by
  induction args with
  | nil =>
    rw [List.nil_append, lastSections]
  | cons u args ih =>
    rw [List.cons_append, lastSections]
    · exact ih
    · simp

/-- The name that a block belongs to, with the arguments in front of the word `do`. -/
def headOf (name : String) (words : List String) : String :=
  if words.isEmpty then name else name ++ " " ++ commas words

theorem isSections_of_writtenPart [CharacterNames] (h : ∀ t ∈ items, WrittenPart t) :
    isSections (.list (.pair (.atom "do") u :: items)) := by
  rw [isSections, isKeywords, Bool.and_eq_true, List.all_eq_true]
  refine ⟨rfl, List.forall_mem_cons.2 ⟨rfl, fun t ht => ?_⟩⟩
  obtain ⟨w, u, -, rfl, -⟩ := h t ht
  rfl

theorem print_block {words lines : List String} (hname : IsToken .name name)
    (hb : name ≠ "__block__") (ha : name ≠ "__aliases__") (hs : isSections (.list items))
    (hw : arguments 0 args = .ok words) (hl : sections (headOf name words) items = .ok lines) :
    print place (.named name (args ++ [.list items]) note) = .ok (joined (lines ++ ["end"])) := by
  obtain ⟨hbin, hun, h₁, h₂, h₃⟩ := hname.noForm
  simp only [headOf, List.isEmpty_iff] at hl
  rw [Tree.named, print]
  simp [hb, ha, h₁, h₂, h₃, hbin, hun, hs, arguments_append, hw, lastSections_append, hl, joined]

theorem written_block [CharacterNames] (hname : IsToken .name name) (hb : name ≠ "__block__")
    (ha : name ≠ "__aliases__") (h : ∀ t ∈ args, Written t)
    (hk : ∀ items, .list items ∈ args → isKeywords items → Keyed items)
    (hu : WrittenBody .body u) (hparts : ∀ t ∈ items, WrittenPart t) :
    Written (.named name (args ++ [.list (.pair (.atom "do") u :: items)]) ⟨line, none⟩) := by
  obtain ⟨words, hwords, hempty, hsw⟩ := spelled_arguments h hk
  obtain ⟨text, hbody, hsb⟩ := hu
  obtain ⟨l, hl, hsl⟩ := written_parts (headOf name words) hparts
  obtain ⟨lines, hlines, hjoined⟩ := sections_cons "do" hbody hl
  have hhead : Spelled Stops (headOf name words).toList
      (spelt .name name * runsOfArguments .arguments args) := by
    rw [headOf]
    split_ifs with hw
    · obtain rfl : args = [] := hempty.1 (by simpa using hw)
      have := (hname.spelled nofun).mono (le_of_eq (mul_one (spelt .name name)).symm)
      exact this.mono (mul_le_mul_right one_le_runsOfArguments _)
    · simpa using (hname.spelled nofun).stopped hsw.blank (by decide)
  have hapart : Apart (headOf name words).toList := by
    rw [headOf]
    split_ifs
    · exact hname.apart nofun
    · simpa using (hname.apart nofun).append (' ' :: (commas words).toList)
  have hword : Spelled Stops "do".toList (spelt (.word .doWord) "do") :=
    (isToken_word .doWord).spelled nofun
  have hrest := (hword.append hsb fun n _ => hbody.stops n).stopped hsl.lineBreak (by decide)
  rw [List.append_assoc] at hrest
  have hspelled := hhead.stopped hrest.blank (by decide)
  simp only [← mul_assoc] at hspelled
  refine ⟨_, .of_tight (ownTier_of_isToken hname) (fun _ _ => print_block hname hb ha
    (isSections_of_writtenPart hparts) hwords hlines) ?_ ?_⟩
  · rw [List.append_assoc, hjoined _ (by simp), if_pos rfl]
    simpa using hspelled.mono (block_le.trans runsOf_primary_le)
  · rw [List.append_assoc, hjoined _ (by simp), if_pos rfl]
    simpa using hapart.append _

end EmbeddedTemplate.Code
