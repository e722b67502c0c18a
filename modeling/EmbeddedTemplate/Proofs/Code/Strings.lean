import EmbeddedTemplate.Proofs.Code.Determinism
import EmbeddedTemplate.Proofs.Code.Indenting
import EmbeddedTemplate.Proofs.Code.Parsing
import EmbeddedTemplate.Proofs.Code.Quoting
import EmbeddedTemplate.Proofs.Number.Decimal
import EmbeddedTemplate.Proofs.Outcome

namespace EmbeddedTemplate.Code

open Lexed
open Printer

variable {text : String}

/-- No string and no comment starts in a name of the tree. -/
inductive Bare : Tree → Prop
  | nil : Bare .nil
  | bool (b : Bool) : Bare (.bool b)
  | int (n : Int) : Bare (.int n)
  | float (x : Binary64) : Bare (.float x)
  | str (s : String) : Bare (.str s)
  | atom {name : String} : isBare name → Bare (.atom name)
  | pair {t u : Tree} : Bare t → Bare u → Bare (.pair t u)
  | list {items : List Tree} : (∀ t ∈ items, Bare t) → Bare (.list items)
  | sealed (items : List Tree) : Bare (.sealed items)
  | ref {target : Tree} {note : Annotation} : (∀ name, target = .str name → isBare name) →
      Bare target → Bare (.ref target note)
  | call {target : Tree} {note : Annotation} {args : List Tree} :
      (∀ name, target = .str name → isBare name) → Bare target → (∀ t ∈ args, Bare t) →
      Bare (.call target note args)

variable {t : Tree} {place : Place}

theorem whole_nameOf (h : Bare t) : Gives Whole (nameOf t) := by
  cases h with
  | atom h => exact .pure (.of_bare h)
  | _ => exact .error

theorem whole_commas {l : List String} (h : ∀ text ∈ l, Whole text) : Whole (commas l) :=
  .intercalate (.of_bare rfl) h

theorem whole_fit {tier : Nat} (h : Whole text) : Whole (fit place tier text) := by
  unfold fit
  split
  · exact .enclosed rfl h rfl
  · exact h

theorem bare_toDigits (n : Nat) : ∀ c ∈ Nat.toDigits 10 n, c ≠ '"' ∧ c ≠ '#' := by
  intro c hc
  have hdigit := Nat.isDigit_of_mem_toDigits (by decide) (by decide) hc
  constructor <;> rintro rfl <;> cases hdigit

theorem whole_intText (n : Int) : Gives Whole (intText n) := by
  have hnat (m : Nat) : isBare m.repr := by simpa [isBare, Nat.toList_repr] using bare_toDigits m
  refine .ite .error (.pure ?_)
  cases n with
  | ofNat m => exact .of_bare (hnat m)
  | negSucc m => exact (Whole.of_bare rfl).append (.of_bare (hnat _))

theorem whole_float (x : Binary64) : Whole x.text := by
  cases x with
  | nan => exact .of_bare rfl
  | infinite negative => cases negative <;> exact .of_bare rfl
  | finite negative m e =>
    have hbare : ∀ c ∈ (Binary64.finite negative m e).text.toList, c ≠ '"' ∧ c ≠ '#' := by
      intro c hc
      have hfigure := Binary64.isFigure_of_mem_text hc
      constructor <;> rintro rfl <;> cases hfigure
    exact .of_bare (by simpa [isBare] using hbare)

mutual

theorem whole_print (place : Place) (t : Tree) (h : Bare t) : Gives Whole (print place t) := by
  rw [print.eq_def]
  -- One case for each form that is printed, in the order of `print`.
  split
  · exact .pure (.of_bare rfl)
  · refine .pure (.of_bare ?_)
    split <;> rfl
  · exact whole_intText _
  · exact .pure (whole_float _)
  · exact .pure (.literal _)
  · cases h with
    | atom h => exact .pure ((Whole.of_bare rfl).append (.of_bare h))
  · next left right =>
    cases h with
    | pair hl hr =>
      refine .bind (whole_print _ left hl) fun a ha => ?_
      refine .bind (whole_print _ right hr) fun b hb => .pure ?_
      exact (((Whole.of_bare rfl).append ha).joined rfl hb).append (.of_bare rfl)
  · next items =>
    cases h with
    | list h =>
      refine .ite (.bind (whole_clauses items h) fun l hl => ?_)
        (.bind (whole_entries _ items h) fun l hl => ?_)
      · exact .pure (.intercalate (.of_bare rfl) hl)
      · exact .pure (.enclosed rfl (whole_commas hl) rfl)
  · exact .error
  · cases h with
    | ref h => exact .pure (.of_bare (h _ rfl))
  · next owner name note =>
    cases h with
    | ref _ h =>
      cases h with
      | call _ _ hparts =>
        obtain ⟨howner, hname⟩ := List.forall_mem_cons.1 hparts
        refine .bind (whole_print _ owner howner) fun a ha => ?_
        refine .bind (whole_nameOf (List.forall_mem_singleton.1 hname)) fun b hb => .pure ?_
        refine (ha.joined rfl hb).append (.of_bare ?_)
        split <;> rfl
  · next target note _ _ =>
    cases h with
    | ref _ h =>
      refine .ite (.bind (whole_print _ target h) fun a ha => .pure ?_) .error
      exact ha.append (.of_bare rfl)
  · next name note args =>
    cases h with
    | call htarget _ hargs =>
      have hname : Whole name := .of_bare (htarget name rfl)
      have hcall : Gives Whole (do return name ++ "(" ++ commas (← arguments 0 args) ++ ")") :=
        .bind (whole_arguments 0 args hargs) fun l hl =>
          .pure ((hname.joined rfl (whole_commas hl)).append (.of_bare rfl))
      have hblock : Gives Whole (do
          let words ← arguments 1 args
          let head := if words.isEmpty then name else name ++ " " ++ commas words
          return "\n".intercalate ((← lastSections head args) ++ ["end"])) := by
        refine .bind (whole_arguments 1 args hargs) fun words hwords => ?_
        refine .bind (whole_lastSections _ args ?_ hargs) fun l hl => .pure ?_
        · split
          · exact hname
          · exact hname.joined rfl (whole_commas hwords)
        · refine .intercalate (.of_bare rfl) (List.forall_mem_append.2 ⟨hl, ?_⟩)
          exact List.forall_mem_singleton.2 (.of_bare rfl)
      have hother := Gives.ite (p := args.getLast?.any isSections) hblock hcall
      refine .ite (.bind (whole_entries false args hargs) fun l hl => .ite ?_ ?_) ?_
      · exact .pure (.intercalate (.of_bare rfl) hl)
      · exact .pure (.enclosed rfl (.intercalate (.of_bare rfl) hl) rfl)
      refine .ite ?_ (.ite ?_ (.ite ?_ ?_))
      · refine .bind (.mapM fun t ht => whole_nameOf (hargs t ht)) fun l hl => ?_
        exact .pure (.intercalate (.of_bare rfl) hl)
      · refine .bind (whole_entries _ args hargs) fun l hl => ?_
        exact .pure (.enclosed rfl (whole_commas hl) rfl)
      · exact whole_clause args hargs
      · have hassign : Gives Whole (do return "@" ++ (← operand tightTier 0 args)) :=
          .bind (whole_operand tightTier 0 args hargs) fun a ha =>
            .pure ((Whole.of_bare rfl).append ha)
        have hgap : Whole (if name = "not" then " " else "") := by
          refine .of_bare ?_
          split <;> rfl
        have hunary : Gives Whole (do
            let gap := if name = "not" then " " else ""
            return fit place unaryTier (name ++ gap ++ (← operand unaryTier 0 args))) :=
          .bind (whole_operand unaryTier 0 args hargs) fun a ha =>
            .pure (whole_fit ((hname.append hgap).append ha))
        have hsingle := Gives.ite (p := args.length = 1) (Gives.ite (p := name = "@") hassign
          (Gives.ite (p := isUnaryName name) hunary hother)) hother
        refine .ite ?_ hsingle
        dsimp only
        split
        · next tier htier =>
          refine .bind (whole_operand _ 0 args hargs) fun a ha => ?_
          refine .bind (whole_operand _ 1 args hargs) fun b hb => .pure (whole_fit ?_)
          exact (ha.joined rfl hname).joined rfl hb
        · exact hsingle
  · next owner name note args =>
    cases h with
    | call _ htarget hargs =>
      cases htarget with
      | call _ _ hparts =>
        obtain ⟨howner, hname⟩ := List.forall_mem_cons.1 hparts
        refine .ite ?_ ?_
        · refine .bind (whole_operand tightTier 0 args hargs) fun a ha => ?_
          refine .bind (whole_operand 0 1 args hargs) fun b hb => .pure ?_
          exact (ha.joined rfl hb).append (.of_bare rfl)
        · refine .bind (whole_print _ owner howner) fun a ha => ?_
          refine .bind (whole_nameOf (List.forall_mem_singleton.1 hname)) fun b hb => ?_
          have hpath : Whole (a ++ "." ++ b) := ha.joined rfl hb
          refine .ite (.pure hpath) (.bind (whole_arguments 0 args hargs) fun l hl => .pure ?_)
          exact (hpath.joined rfl (whole_commas hl)).append (.of_bare rfl)
  · next target note args _ _ =>
    cases h with
    | call _ htarget hargs =>
      refine .ite (.bind (whole_print _ target htarget) fun a ha => ?_) .error
      refine .bind (whole_arguments 0 args hargs) fun l hl => .pure ?_
      exact (ha.joined rfl (whole_commas hl)).append (.of_bare rfl)
termination_by sizeOf t

theorem whole_operand (tier i : Nat) (ts : List Tree) (h : ∀ t ∈ ts, Bare t) :
    Gives Whole (operand tier i ts) := by
  cases ts with
  | nil =>
    rw [operand.eq_def]
    exact .error
  | cons t ts =>
    obtain ⟨ht, hts⟩ := List.forall_mem_cons.1 h
    cases i with
    | zero => exact whole_print _ t ht
    | succ i => exact whole_operand tier i ts hts
termination_by sizeOf ts

theorem whole_entries (short : Bool) (ts : List Tree) (h : ∀ t ∈ ts, Bare t) :
    Gives (∀ text ∈ ·, Whole text) (entries short ts) := by
  cases ts with
  | nil => exact .pure nofun
  | cons t ts =>
    obtain ⟨ht, hts⟩ := List.forall_mem_cons.1 h
    have hrest := whole_entries short ts hts
    rw [entries.eq_def]
    dsimp only
    split
    · next key value =>
      cases ht with
      | pair hkey hvalue =>
        cases hkey with
        | atom hkey =>
          exact .bind (whole_print _ value hvalue) fun a ha =>
            .cons ((Whole.of_bare hkey).joined rfl ha) hrest
    · exact .bind (whole_print _ _ ht) fun _ ha => .cons ha hrest
termination_by sizeOf ts

theorem whole_arguments (omitted : Nat) (ts : List Tree) (h : ∀ t ∈ ts, Bare t) :
    Gives (∀ text ∈ ·, Whole text) (arguments omitted ts) := by
  cases ts with
  | nil => exact .pure nofun
  | cons t ts =>
    obtain ⟨ht, hts⟩ := List.forall_mem_cons.1 h
    have hrest := whole_arguments omitted ts hts
    rw [arguments.eq_def]
    refine .ite (.pure nofun) ?_
    dsimp only
    split
    · next items =>
      cases ht with
      | list hitems =>
        refine .bind (whole_entries _ items hitems) fun l hl => .cons ?_ hrest
        split
        · exact whole_commas hl
        · exact .enclosed rfl (whole_commas hl) rfl
    · exact .bind (whole_print _ _ ht) fun _ ha => .cons ha hrest
termination_by sizeOf ts

theorem whole_clause (args : List Tree) (h : ∀ t ∈ args, Bare t) : Gives Whole (clause args) := by
  rw [clause.eq_def]
  split
  · next patterns body =>
    obtain ⟨hpatterns, hbody⟩ := List.forall_mem_cons.1 h
    cases hpatterns with
    | list hpatterns =>
      refine .bind (whole_entries false patterns hpatterns) fun l hl => ?_
      have hhead : Whole (commas l ++ " ->") := (whole_commas hl).append (.of_bare rfl)
      dsimp only
      split
      · exact .pure hhead
      · refine .bind (whole_print _ _ (List.forall_mem_singleton.1 hbody)) fun a ha => .pure ?_
        exact hhead.joined rfl ha.indent
  · exact .error
  · exact .error
termination_by sizeOf args

theorem whole_clauses (ts : List Tree) (h : ∀ t ∈ ts, Bare t) :
    Gives (∀ text ∈ ·, Whole text) (clauses ts) := by
  rw [clauses.eq_def]
  split
  · exact .pure nofun
  · next args ts =>
    obtain ⟨ht, hts⟩ := List.forall_mem_cons.1 h
    cases ht with
    | call _ _ hargs =>
      exact .bind (whole_clause args hargs) fun _ htext => .cons htext (whole_clauses ts hts)
  · exact .error
termination_by sizeOf ts

theorem whole_sections (head : String) (ts : List Tree) (hh : Whole head) (h : ∀ t ∈ ts, Bare t) :
    Gives (∀ text ∈ ·, Whole text) (sections head ts) := by
  rw [sections.eq_def]
  split
  · exact .pure nofun
  · next label body ts =>
    obtain ⟨ht, hts⟩ := List.forall_mem_cons.1 h
    cases ht with
    | pair hlabel hbody =>
      cases hlabel with
      | atom hlabel =>
        have hfirst : Whole (if label = "do" then head ++ " do" else label) := by
          split
          · exact hh.append (.of_bare rfl)
          · exact .of_bare hlabel
        have happend (lines : List String) (hlines : ∀ text ∈ lines, Whole text) :
            Gives (∀ text ∈ ·, Whole text) (do return lines ++ (← sections head ts)) :=
          .bind (whole_sections head ts hh hts) fun l hl =>
            .pure (List.forall_mem_append.2 ⟨hlines, hl⟩)
        dsimp only
        split
        · exact happend _ (List.forall_mem_singleton.2 hfirst)
        · refine .bind (whole_print _ _ hbody) fun a ha => happend _ ?_
          exact List.forall_mem_cons.2 ⟨hfirst, List.forall_mem_singleton.2 ha.indent⟩
  · exact .error
termination_by sizeOf ts

theorem whole_lastSections (head : String) (ts : List Tree) (hh : Whole head)
    (h : ∀ t ∈ ts, Bare t) : Gives (∀ text ∈ ·, Whole text) (lastSections head ts) := by
  rw [lastSections.eq_def]
  split
  · exact .error
  · next t ts =>
    obtain ⟨ht, hts⟩ := List.forall_mem_cons.1 h
    split
    · next items =>
      cases ht with
      | list hitems => exact whole_sections head items hh hitems
    · exact whole_lastSections head _ hh hts
termination_by sizeOf ts

end

theorem tokens_literal (s : String) (line : Int) :
    (Lexed.ofCode (Text.literal s) line).rejected = none ∧
      ∃ l, (Lexed.ofCode (Text.literal s) line).tokens = [⟨.string, Text.literal s, l⟩] := by
  obtain ⟨_, ⟨l, rfl⟩, hts⟩ := spelled_literal s 0 line [] trivial
  rw [shift_zero, List.append_nil, tokensAt?_nil] at hts
  unfold tokensAt? at hts
  dsimp only at hts
  split at hts
  · next hr => exact ⟨Option.isNone_iff_eq_none.1 hr, l, Option.some.inj hts⟩
  · cases hts

theorem parse_literal [CharacterNames] (s : String) (line : Int) :
    parse (Text.literal s) line = .ok (.str s) := by
  obtain ⟨hr, l, hts⟩ := tokens_literal s line
  have hd : Derives .program [⟨.string, Text.literal s, l⟩]
      [.statements [.literal ⟨.string, Text.literal s, l⟩]] :=
    (Derives.tier_of_primary (.literal rfl) (Nat.zero_le _)).program_of_tier
  obtain ⟨p, hp, hparse⟩ := parse_of_derives hr ⟨_, hts ▸ hd⟩
  have hdo : ∀ t ∈ [(⟨.string, Text.literal s, l⟩ : Token)], t.terminal ≠ .word .doWord := by simp
  obtain rfl := List.singleton_inj.1 (hd.program_unique (hts ▸ hp) hdo)
  rw [hparse]
  simp [Phrase.toTree, Phrase.toTrees, value_literal, pure_eq_ok]

/--
Every string is printed as a literal without line breaks, which is read as the string and which any
text keeps that is indented. When the text of a body is indented, each token stays what it is.
-/
theorem parse_toSource_str [CharacterNames] :
    (∀ s : String, ∃ source, toSource (.str s) = .ok source ∧
        (∀ line, parse source line = .ok (.str s)) ∧ '\n' ∉ source.toList ∧
        ∀ before behind, (indent (before ++ source ++ behind)).toList =
          (indent before).toList ++ source.toList ++ shift 2 behind.toList) ∧
      ∀ body text, Bare body → print .body body = .ok text →
        spellings? (indent text) = spellings? text := by
  constructor
  · intro s
    refine ⟨Text.literal s, rfl, parse_literal s, not_mem_literal s, fun before behind => ?_⟩
    simp only [Whole.toList_indent, String.toList_append, shift_append,
      shift_of_not_mem (not_mem_literal s), List.cons_append]
  · intro body text hb hp
    exact (whole_print .body body hb text hp).spellings?_indent

def linesExample : Tree := .named "__block__" [.str "a\nb", .named "f" [.str "#"]]

theorem parse_toSource_str_lines :
    (∃ source, toSource (.str "a\nb") = .ok source ∧ parse source 1 = .ok (.str "a\nb") ∧
        '\n' ∉ source.toList) ∧
      ∃ text, print .body linesExample = .ok text ∧
        spellings? (indent text) = spellings? text := by
  have hbare : Bare linesExample := by
    refine .call (fun name h => ?_) (.str _) (List.forall_mem_cons.2 ⟨.str _,
      List.forall_mem_singleton.2 (.call (fun name h => ?_) (.str _)
        (List.forall_mem_singleton.2 (.str _)))⟩)
    · cases h
      rfl
    · cases h
      rfl
  have hprint : print .body linesExample = .ok "\"a\\nb\"\nf(\"#\")" := by cbv
  obtain ⟨hstr, hbody⟩ := parse_toSource_str
  obtain ⟨source, hsource, hparse, hn, -⟩ := hstr "a\nb"
  exact ⟨⟨source, hsource, hparse 1, hn⟩, _, hprint, hbody linesExample _ hbare hprint⟩

end EmbeddedTemplate.Code
