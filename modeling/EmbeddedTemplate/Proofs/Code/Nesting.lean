import EmbeddedTemplate.Code.Grammar

namespace EmbeddedTemplate.Code

namespace Terminal

def opens : Terminal → Bool
  | .sign .leftParen | .sign .leftBracket | .sign .leftBrace | .word .doWord => true
  | _ => false

def closes : Terminal → Bool
  | .sign .rightParen | .sign .rightBracket | .sign .rightBrace | .word .endWord => true
  | _ => false

def isNeutral (t : Terminal) : Bool := !t.opens && !t.closes && t ≠ .sign .semicolon

variable {t : Terminal} {k : Nat} {w : Word}

theorem isNeutral_of_tier? (h : t.tier? = some k) : t.isNeutral := by
  unfold tier? at h
  split at h <;> first | rfl | cases h

theorem isNeutral_of_isUnary (h : t.isUnary) : t.isNeutral := by
  unfold isUnary at h
  split at h <;> first | rfl | cases h

theorem isNeutral_of_isLiteral (h : t.isLiteral) : t.isNeutral := by
  unfold isLiteral at h
  split at h <;> first | rfl | cases h

theorem isNeutral_of_opensSection (h : w.opensSection) : (word w).isNeutral := by
  cases w <;> first | rfl | cases h

end Terminal

def Token.depthAfter (depth : Nat) (t : Token) : Option Nat :=
  if t.terminal.opens then some (depth + 1)
  else if t.terminal.isNeutral then some depth
  else match depth with
    | 0 => none
    | d + 1 => if t.terminal.closes then some d else some (d + 1)

def depthAfter (depth : Nat) (ts : List Token) : Option Nat := ts.foldlM Token.depthAfter depth

section

variable {d : Nat} {t : Token} {ts us : List Token}

@[simp] theorem depthAfter_nil : depthAfter d [] = some d := rfl

@[simp] theorem depthAfter_cons :
    depthAfter d (t :: ts) = (t.depthAfter d).bind (depthAfter · ts) := rfl

@[simp] theorem depthAfter_append :
    depthAfter d (ts ++ us) = (depthAfter d ts).bind (depthAfter · us) := List.foldlM_append

theorem Token.depthAfter_neutral (h : t.terminal.isNeutral) : t.depthAfter d = some d := by
  have : t.terminal.opens = false := by
    simp only [Terminal.isNeutral, Bool.and_eq_true, Bool.not_eq_true'] at h
    exact h.1.1
  simp [depthAfter, h, this]

theorem depthAfter_separators (h : Separators ts) : depthAfter (d + 1) ts = some (d + 1) := by
  induction ts with
  | nil => rfl
  | cons t ts ih =>
    obtain ⟨ht, h⟩ := List.forall_mem_cons.1 h
    simp [Token.depthAfter, ht, Terminal.opens, Terminal.closes, Terminal.isNeutral, ih h]

end

def Category.isFlat : Category → Bool
  | .tier _ | .operand | .primary | .entry | .entries | .arguments | .patterns => true
  | _ => false

/-- Runs leave the depth as it is, and the sections of a block close the block. -/
def Nested (c : Category) (ts : List Token) : Prop :=
  if c.isFlat then ∀ d, depthAfter d ts = some d
  else if c = .parts then ∀ d, depthAfter (d + 1) ts = some d
  else ∀ d, depthAfter (d + 1) ts = some (d + 1)

theorem Derives.nested {c : Category} {ts : List Token} {ps : List Phrase} (h : Derives c ts ps) :
    Nested c ts := by
  induction h with
  | binary _ ho _ =>
    have := Terminal.isNeutral_of_tier? ho
    simp_all [Nested, Category.isFlat, Token.depthAfter_neutral]
  | unary ho _ =>
    have := Terminal.isNeutral_of_isUnary ho
    simp_all [Nested, Category.isFlat, Token.depthAfter_neutral]
  | literal ht =>
    have := Terminal.isNeutral_of_isLiteral ht
    simp_all [Nested, Category.isFlat, Token.depthAfter_neutral]
  | moreParts hl hw _ _ =>
    have := Terminal.isNeutral_of_opensSection hw
    simp_all [Nested, Category.isFlat, Token.depthAfter_neutral]
  | _ =>
    simp_all [Nested, Category.isFlat, Token.depthAfter, Terminal.opens, Terminal.closes,
      Terminal.isNeutral, depthAfter_separators]

section

variable {c : Category} {t : Token} {ts more : List Token} {ps : List Phrase}

theorem Derives.depthAfter_of_isFlat (h : Derives c ts ps) (hc : c.isFlat) (d : Nat) :
    depthAfter d ts = some d := by
  have := h.nested
  rw [Nested, if_pos hc] at this
  exact this d

end

end EmbeddedTemplate.Code
