import EmbeddedTemplate.Code.Reading
import EmbeddedTemplate.Proofs.Code.Nesting
import EmbeddedTemplate.Proofs.Tree.Mentions
import Mathlib.Data.List.Forall2

/-!
What becomes of the reserved name in code: how it is used in a phrase is told from the tokens around
it, however the rest of the tokens is read.
-/

namespace EmbeddedTemplate.Code

inductive Site
  | dotted
  | guarded (key : Int)
  | free
deriving DecidableEq, Repr

def Token.isReserved (t : Token) : Bool := t.terminal = .name && t.text = reservedName

def Token.number (t : Token) : Int := Binary64.natOfDigits (t.text.toList.filter (· ≠ '_'))

def guardKey? : List Token → Option Int
  | opening :: key :: closing :: mark :: _ =>
    if opening.terminal = .sign .leftParen ∧ key.terminal = .int ∧
        closing.terminal = .sign .rightParen ∧ mark.terminal = .sign .semicolon then some key.number
    else none
  | _ => none

def Site.of (dotted : Bool) (behind : List Token) : Site :=
  if dotted then .dotted else (guardKey? behind).elim .free .guarded

/-- The places of the reserved names among tokens in front of `more`. -/
def sites (dotted : Bool) (more : List Token) : List Token → List Site
  | [] => []
  | t :: ts =>
    (if t.isReserved then [Site.of dotted (ts ++ more)] else []) ++
      sites (t.terminal = .sign .dot) more ts

def dottedAfter (dotted : Bool) (ts : List Token) : Bool :=
  ts.getLast?.elim dotted fun t => t.terminal = .sign .dot

/--
The mention that a call of the reserved name is. An integer that is too long to have a value, so
that there is no tree at all, counts as a key too.
-/
def callMention [CharacterNames] (args : List Phrase) : Mention :=
  match Phrase.toTrees args, args with
  | .ok trees, args => .ofCall (Phrase.gatherKeywords args trees)
  | .error _, [.literal t] => .placeholder t.number
  | .error _, _ => .stray

def Token.use (t : Token) (m : Mention) : List Mention := if t.text = reservedName then [m] else []

namespace Phrase

mutual

def uses [CharacterNames] : Phrase → List Mention
  | .literal _ | .modulePath _ => []
  | .name t | .assign _ t => t.use .stray
  | .call t args => t.use (callMention args) ++ usesAll args
  | .block t args parts => t.use .stray ++ usesAll args ++ usesAll parts
  | .parens _ p | .unary _ p | .keyword _ p | .part _ p => p.uses
  | .field p t => p.uses ++ t.use .stray
  | .list _ ps | .tuple _ ps | .statements ps | .clauses ps => usesAll ps
  | .binary p _ q | .access p q => p.uses ++ q.uses
  | .remoteCall p t args => p.uses ++ t.use .stray ++ usesAll args
  | .clause ps body => usesAll ps ++ body.uses

def usesAll [CharacterNames] : List Phrase → List Mention
  | [] => []
  | p :: ps => p.uses ++ usesAll ps

end

end Phrase

inductive Site.Fits : Site → Mention → Prop
  | dotted : Fits .dotted .stray
  | guarded {key} : Fits (.guarded key) (.placeholder key)
  | free {m} : Fits .free m

section

variable {dotted : Bool} {t : Token} {ts us more : List Token}

@[simp] theorem sites_nil : sites dotted more [] = [] := rfl

theorem sites_cons : sites dotted more (t :: ts) =
    (if t.isReserved then [Site.of dotted (ts ++ more)] else []) ++
      sites (t.terminal = .sign .dot) more ts := rfl

theorem sites_cons_of_ne (h : t.terminal ≠ .name) :
    sites dotted more (t :: ts) = sites (t.terminal = .sign .dot) more ts := by
  simp [sites_cons, Token.isReserved, h]

@[simp] theorem dottedAfter_nil : dottedAfter dotted [] = dotted := rfl

@[simp] theorem dottedAfter_cons :
    dottedAfter dotted (t :: ts) = dottedAfter (t.terminal = .sign .dot) ts := by
  cases ts with
  | nil => rfl
  | cons u us => simp [dottedAfter, List.getLast?_cons]

@[simp] theorem dottedAfter_append :
    dottedAfter dotted (ts ++ us) = dottedAfter (dottedAfter dotted ts) us := by
  induction ts generalizing dotted with
  | nil => rfl
  | cons t ts ih => rw [List.cons_append, dottedAfter_cons, ih, dottedAfter_cons]

theorem dottedAfter_separators (h : Separators ts) : dottedAfter false ts = false := by
  induction ts with
  | nil => rfl
  | cons t ts ih =>
    obtain ⟨ht, h⟩ := List.forall_mem_cons.1 h
    simpa [ht] using ih h

theorem sites_eq_nil (h : ∀ t ∈ ts, t.isReserved = false) : sites dotted more ts = [] := by
  induction ts generalizing dotted with
  | nil => rfl
  | cons t ts ih =>
    obtain ⟨ht, h⟩ := List.forall_mem_cons.1 h
    simp [sites_cons, ht, ih h]

theorem isReserved_of_sites_eq_nil (h : sites dotted more ts = []) :
    ∀ t ∈ ts, t.isReserved = false := by
  induction ts generalizing dotted with
  | nil => simp
  | cons t ts ih =>
    rw [sites_cons] at h
    obtain ⟨ht, h⟩ := List.append_eq_nil_iff.1 h
    refine List.forall_mem_cons.2 ⟨?_, ih h⟩
    cases hr : t.isReserved <;> simp_all

theorem sites_append : sites dotted more (ts ++ us) =
    sites dotted (us ++ more) ts ++ sites (dottedAfter dotted ts) more us := by
  induction ts generalizing dotted with
  | nil => rfl
  | cons t ts ih =>
    rw [List.cons_append, sites_cons, sites_cons, ih, dottedAfter_cons, List.append_assoc,
      List.append_assoc]

theorem guardKey?_cons_of_ne (h : t.terminal ≠ .sign .leftParen) :
    guardKey? (t :: ts) = none := by
  match ts with
  | [] | [_] | [_, _] => rfl
  | _ :: _ :: _ :: _ => simp [guardKey?, h]

end

namespace Terminal

variable {t : Terminal} {k : Nat}

def isApart (t : Terminal) : Bool := t ≠ .name ∧ t ≠ .sign .dot

theorem isApart_of_tier? (h : t.tier? = some k) : t.isApart := by
  unfold tier? at h
  split at h <;> first | rfl | cases h

theorem isApart_of_isUnary (h : t.isUnary) : t.isApart := by
  unfold isUnary at h
  split at h <;> first | rfl | cases h

theorem isApart_of_isLiteral (h : t.isLiteral) : t.isApart := by
  unfold isLiteral at h
  split at h <;> first | rfl | cases h

end Terminal

theorem Derives.dottedAfter_eq {c : Category} {ts : List Token} {ps : List Phrase}
    (h : Derives c ts ps) : dottedAfter false ts = false := by
  induction h with
  | binary _ ho _ =>
    have := Terminal.isApart_of_tier? ho
    simp_all [Terminal.isApart]
  | unary ho _ =>
    have := Terminal.isApart_of_isUnary ho
    simp_all [Terminal.isApart]
  | literal ht =>
    have := Terminal.isApart_of_isLiteral ht
    simp_all [Terminal.isApart]
  | _ => simp_all [dottedAfter_separators]

theorem guardKey?_eq_some {ts : List Token} {k : Int} (h : guardKey? ts = some k) :
    ∃ opening key closing mark rest, ts = opening :: key :: closing :: mark :: rest ∧
      opening.terminal = .sign .leftParen ∧ key.terminal = .int ∧
      closing.terminal = .sign .rightParen ∧ mark.terminal = .sign .semicolon ∧
      key.number = k := by
  unfold guardKey? at h
  split at h
  · next opening key closing mark rest =>
    split at h
    · next ht =>
      obtain ⟨ho, hk, hc, hm⟩ := ht
      exact ⟨opening, key, closing, mark, rest, rfl, ho, hk, hc, hm, Option.some.inj h⟩
    · cases h
  · cases h

theorem Derives.guardKey?_append {c : Category} {ts more : List Token} {ps : List Phrase}
    {t : Token} (h : Derives c ts ps) (hc : c.isFlat) (hp : t.terminal ≠ .sign .leftParen)
    (hs : t.terminal ≠ .sign .semicolon) : guardKey? (ts ++ t :: more) = none := by
  have hd := h.depthAfter_of_isFlat hc 0
  by_contra hk
  obtain ⟨k, hk⟩ := Option.ne_none_iff_exists'.1 hk
  obtain ⟨opening, key, closing, mark, rest, hts, ho, hk, hc, hm, -⟩ := guardKey?_eq_some hk
  match ts with
  | [] | [_] | [_, _] | [_, _, _] | _ :: _ :: _ :: _ :: _ =>
    simp_all [Token.depthAfter, Terminal.opens, Terminal.isNeutral, Terminal.closes]

theorem Derives.eq_literal {c : Category} {ts : List Token} {ps : List Phrase} {t : Token}
    (h : Derives c ts ps) (hc : c.isFlat) (hts : ts = [t]) (ht : t.terminal = .int) :
    ps = [.literal t] := by
  induction h with
  | binary _ ho _ | unary ho _ =>
    simp_all [List.append_eq_singleton_iff, Category.isFlat]
    cases ho
  | _ => simp_all [List.append_eq_singleton_iff, Category.isFlat]

theorem callMention_literal [CharacterNames] {t : Token} (h : t.terminal = .int) :
    callMention [.literal t] = .placeholder t.number := by
  have hv : Literal.value t =
      (Literal.intValue (t.text.toList.filter (· ≠ '_'))).map .int := by
    simp only [Literal.value, h]
  cases hd : Literal.intValue (t.text.toList.filter (· ≠ '_')) with
  | error e =>
    have : Phrase.toTrees [.literal t] = .error e := by
      rw [Phrase.toTrees, Phrase.toTree, hv, hd]
      rfl
    simp only [callMention, this]
  | ok k =>
    have : Phrase.toTrees [.literal t] = .ok [.int k] := by
      rw [Phrase.toTrees, Phrase.toTree, hv, hd]
      rfl
    simp only [callMention, this]
    unfold Literal.intValue at hd
    split at hd <;> cases hd
    rfl

theorem Derives.callMention_eq [CharacterNames] {ts more : List Token} {args : List Phrase}
    {opening closing : Token}
    {k : Int} (h : Derives .arguments ts args) (hc : closing.terminal = .sign .rightParen)
    (hk : guardKey? (opening :: (ts ++ closing :: more)) = some k) :
    callMention args = .placeholder k := by
  have hd := h.depthAfter_of_isFlat rfl 0
  obtain ⟨_, key, closing', mark, rest, hts, -, hi, hc', -, hv⟩ := guardKey?_eq_some hk
  obtain ⟨-, hts⟩ := List.cons.inj hts
  match ts with
  | [] => simp_all
  | [i] =>
    obtain ⟨rfl, -⟩ := List.cons.inj hts
    rw [h.eq_literal rfl rfl hi, callMention_literal hi, hv]
  | _ :: _ :: _ =>
    simp_all [Token.depthAfter, Terminal.opens, Terminal.isNeutral, Terminal.closes]

def Used (dotted : Bool) (more ts : List Token) (ms : List Mention) : Prop :=
  List.Forall₂ Site.Fits (sites dotted more ts) ms

namespace Used

variable {dotted : Bool} {t : Token} {ts us more : List Token} {m : Mention} {ms ns : List Mention}

theorem nil : Used dotted more [] [] := List.Forall₂.nil

theorem append (ht : Used dotted (us ++ more) ts ms) (hd : dottedAfter dotted ts = false)
    (hu : Used false more us ns) : Used dotted more (ts ++ us) (ms ++ ns) := by
  rw [Used, sites_append, hd]
  exact List.rel_append ht hu

theorem skip (ht : t.terminal.isApart) (h : Used false more ts ms) :
    Used dotted more (t :: ts) ms := by
  have : t.terminal ≠ .name ∧ t.terminal ≠ .sign .dot := by
    simp_all [Terminal.isApart]
  rw [Used, sites_cons_of_ne this.1, decide_eq_false this.2]
  exact h

theorem point (ht : t.terminal = .sign .dot) (h : Used true more ts ms) :
    Used dotted more (t :: ts) ms := by
  rw [Used, sites_cons_of_ne (by simp [ht]), decide_eq_true ht]
  exact h

theorem separators (hs : Separators ts) : Used dotted more ts [] := by
  induction ts generalizing dotted with
  | nil => exact .nil
  | cons t ts ih =>
    obtain ⟨ht, hs⟩ := List.forall_mem_cons.1 hs
    exact skip (by rw [ht]; rfl) (ih hs)

theorem name (ht : t.terminal = .name) (hm : (Site.of dotted (ts ++ more)).Fits m)
    (h : Used false more ts ms) : Used dotted more (t :: ts) (t.use m ++ ms) := by
  have hr : t.isReserved = decide (t.text = reservedName) := by simp [Token.isReserved, ht]
  rw [Used, sites_cons, hr, Token.use, ht]
  refine List.rel_append ?_ h
  by_cases hn : t.text = reservedName
  · simp only [hn, decide_true, if_true]
    exact .cons hm .nil
  · simp only [hn, decide_false, if_false]
    exact .nil

end Used

theorem Used.closed {dotted : Bool} {t : Token} {ts more : List Token} {ms : List Mention}
    (h : Used dotted (t :: more) ts ms) (hd : dottedAfter dotted ts = false)
    (ht : t.terminal.isApart) : Used dotted more (ts ++ [t]) ms := by
  rw [← List.append_nil ms]
  exact h.append hd (.skip ht .nil)

theorem Site.fits_of_none {behind : List Token} {m : Mention} (h : guardKey? behind = none) :
    (Site.of false behind).Fits m := by
  rw [Site.of, h]
  exact .free

theorem Site.fits_call {behind : List Token} {m : Mention}
    (h : ∀ k, guardKey? behind = some k → m = .placeholder k) : (Site.of false behind).Fits m := by
  rw [Site.of]
  cases hk : guardKey? behind with
  | none => exact .free
  | some k => exact h k hk ▸ .guarded

@[simp] theorem Phrase.usesAll_singleton [CharacterNames] (p : Phrase) : usesAll [p] = p.uses :=
  List.append_nil _

theorem Derives.guardKey?_parts {ts : List Token} {ps : List Phrase} (h : Derives .parts ts ps)
    (more : List Token) : guardKey? (ts ++ more) = none := by
  cases h with
  | noParts hc => exact guardKey?_cons_of_ne (by simp [hc])
  | moreParts hl => exact guardKey?_cons_of_ne (by simp [hl])

theorem Derives.guardKey?_clauses {ts : List Token} {ps : List Phrase} (h : Derives .clauses ts ps)
    (more : List Token) : guardKey? (ts ++ more) = none := by
  have hclause {ts more : List Token} {ps : List Phrase} (h : Derives .clause ts ps) :
      guardKey? (ts ++ more) = none := by
    cases h with
    | clause hp ha hb =>
      rw [List.append_assoc, List.cons_append]
      exact hp.guardKey?_append rfl (by simp [ha]) (by simp [ha])
  cases h with
  | lastClause h => exact hclause h
  | moreClauses h _ =>
    rw [List.append_assoc]
    exact hclause h

/--
However the tokens are read, each reserved name among them is used as its place lets it, if what
stands behind them does not guard the last one.
-/
theorem Derives.used [CharacterNames] {c : Category} {ts more : List Token} {ps : List Phrase}
    (h : Derives c ts ps)
    (hm : guardKey? more = none) : Used false more ts (Phrase.usesAll ps) := by
  have apart {t : Token} {u : Terminal} (h : t.terminal = u) (hu : u.isApart) :
      t.terminal.isApart := h ▸ hu
  have hides {t : Token} {u : Terminal} {ts : List Token} (h : t.terminal = u)
      (hu : u ≠ .sign .leftParen) : guardKey? (t :: ts) = none := guardKey?_cons_of_ne (h ▸ hu)
  have hsep {gap more : List Token} (hg : Separators gap) (hm : guardKey? more = none) :
      guardKey? (gap ++ more) = none := by
    cases gap with
    | nil => exact hm
    | cons t gap => exact hides (hg t (List.mem_cons_self ..)) (by decide)
  -- Behind a part stands `more` or a token of the rule, and no such token is a parenthesis.
  induction h generalizing more with
  | tighter _ _ ih | operand _ ih | primary _ ih | expression _ ih | lastEntry _ ih
  | someArguments _ ih | lastPattern _ ih | lastClause _ ih | statements _ ih => exact ih hm
  | binary hl ho _ ihl ihr =>
    simp only [Phrase.usesAll_singleton, Phrase.uses] at ihl ihr ⊢
    have ha := Terminal.isApart_of_tier? ho
    refine (ihl (hides rfl ?_)).append hl.dottedAfter_eq ((ihr hm).skip ha)
    intro h
    rw [h] at ho
    cases ho
  | unary ho _ ih =>
    simp only [Phrase.usesAll_singleton, Phrase.uses] at ih ⊢
    exact (ih hm).skip (Terminal.isApart_of_isUnary ho)
  | literal ht => exact .skip (Terminal.isApart_of_isLiteral ht) .nil
  | name ht => exact .name ht (Site.fits_of_none hm) .nil
  | modulePath ht => exact .skip (apart ht rfl) .nil
  | assign ha hn => exact .skip (apart ha rfl) (.name hn (Site.fits_of_none hm) .nil)
  | noArguments => exact .nil
  | call hn ho hi hc ih =>
    simp only [Phrase.usesAll_singleton, Phrase.uses]
    refine .name hn (Site.fits_call fun k hk => ?_) ?_
    · exact hi.callMention_eq hc (by simpa using hk)
    · refine .skip (apart ho rfl) (.closed ?_ hi.dottedAfter_eq (apart hc rfl))
      exact ih (hides hc (by decide))
  | remoteCall ht hd hn ho hi hc iht ihi =>
    simp only [Phrase.usesAll_singleton, Phrase.uses, List.append_assoc] at iht ⊢
    refine (iht (hides hd (by decide))).append ht.dottedAfter_eq (.point hd ?_)
    refine .name hn .dotted (.skip (apart ho rfl) ?_)
    exact (ihi (hides hc (by decide))).closed hi.dottedAfter_eq (apart hc rfl)
  | field ht hd hn ih =>
    simp only [Phrase.usesAll_singleton, Phrase.uses] at ih ⊢
    rw [← List.append_nil (Token.use _ _)]
    exact (ih (hides hd (by decide))).append ht.dottedAfter_eq (.point hd (.name hn .dotted .nil))
  | access ht ho hi hc iht ihi =>
    simp only [Phrase.usesAll_singleton, Phrase.uses, List.append_assoc] at iht ihi ⊢
    refine (iht (hides ho (by decide))).append ht.dottedAfter_eq (.skip (apart ho rfl) ?_)
    exact (ihi (hides hc (by decide))).closed hi.dottedAfter_eq (apart hc rfl)
  | @block name inner args opening ts body rest parts hn ha ho hb hp iha ihb ihp =>
    simp only [Phrase.uses, Phrase.usesAll, List.append_assoc, List.append_nil] at ihb ⊢
    refine .name hn (Site.fits_of_none ?_) ?_
    · have (more : List Token) : guardKey? (inner ++ opening :: more) = none :=
        ha.guardKey?_append rfl (by simp [ho]) (by simp [ho])
      simpa using this (ts ++ (rest ++ more))
    · refine (iha (hides ho (by decide))).append ha.dottedAfter_eq (.skip (apart ho rfl) ?_)
      refine (ihb (hp.guardKey?_parts ..)).append hb.dottedAfter_eq (ihp hm)
  | parens ho hi hc ih | list ho hi hc ih | tuple ho hi hc ih =>
    simp only [Phrase.usesAll_singleton, Phrase.uses] at ih ⊢
    refine .skip (apart ho rfl) (.closed ?_ hi.dottedAfter_eq (apart hc rfl))
    exact ih (hides hc (by decide))
  | keyword hk hv ih =>
    simp only [Phrase.usesAll_singleton, Phrase.uses] at ih ⊢
    exact (ih hm).skip (apart hk rfl)
  | moreEntries he hc hr ihe ihr | morePatterns he hc hr ihe ihr =>
    simp only [Phrase.usesAll_singleton] at ihe
    exact (ihe (hides hc (by decide))).append he.dottedAfter_eq ((ihr hm).skip (apart hc rfl))
  | lastStatement ht hg ih =>
    rw [← List.append_nil (Phrase.usesAll _)]
    exact (ih (hsep hg hm)).append ht.dottedAfter_eq (.separators hg)
  | moreStatements ht hg hne hr iht ihr =>
    simp only [Phrase.usesAll_singleton, List.append_assoc] at iht ⊢
    obtain ⟨t, gap, rfl⟩ := List.exists_cons_of_ne_nil hne
    have hfirst := hg t (List.mem_cons_self ..)
    refine (iht (hides hfirst (by decide))).append ht.dottedAfter_eq ?_
    exact (Used.separators hg).append (dottedAfter_separators hg) (ihr hm)
  | clause hp ha hb ihp ihb =>
    simp only [Phrase.usesAll_singleton, Phrase.uses] at ihb ⊢
    exact (ihp (hides ha (by decide))).append hp.dottedAfter_eq ((ihb hm).skip (apart ha rfl))
  | moreClauses hc hr ihc ihr =>
    simp only [Phrase.usesAll_singleton] at ihc
    exact (ihc (hr.guardKey?_clauses ..)).append hc.dottedAfter_eq (ihr hm)
  | noStatements hg => exact .separators hg
  | someStatements hg hs ih | clauses hg hs ih =>
    simp only [Phrase.usesAll_singleton, Phrase.uses]
    exact (Used.separators hg).append (dottedAfter_separators hg) (ih hm)
  | noParts hc => exact .skip (apart hc rfl) .nil
  | moreParts hl hw hb hr ihb ihr =>
    simp only [Phrase.uses, Phrase.usesAll, List.append_nil] at ihb ⊢
    exact .skip (apart hl rfl) ((ihb (hr.guardKey?_parts ..)).append hb.dottedAfter_eq (ihr hm))

end EmbeddedTemplate.Code
