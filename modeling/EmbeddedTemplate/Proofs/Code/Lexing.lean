import EmbeddedTemplate.Code.Expression

/-!
How code splits into lexemes. Nothing below looks into `scan` again: code is empty, or starts with a
character that no lexeme starts with, or with a lexeme, and then the rest of the code is scanned.
-/

namespace EmbeddedTemplate.Code

theorem lastLine_append (s t : String) (line : Int) :
    lastLine (s ++ t) line = lastLine t (lastLine s line) := by
  simp only [lastLine, String.toList_append, List.count_append]
  omega

theorem lastLine_eq_self {s : String} {line : Int} :
    lastLine s line = line ↔ '\n' ∉ s.toList := by
  rw [lastLine, ← List.count_eq_zero]
  omega

namespace Lexed

def lineBehind (line : Int) (cs : List Char) : Int := line + cs.count '\n'

@[simp] theorem lineBehind_nil (line : Int) : lineBehind line [] = line := by simp [lineBehind]

theorem lineBehind_toList (line : Int) (s : String) :
    lineBehind line s.toList = lastLine s line := rfl

theorem lineBehind_cons (line : Int) (c : Char) (cs : List Char) :
    lineBehind line (c :: cs) = lineBehind (lineAfter line c) cs := by
  simp only [lineBehind, lineAfter, List.count_cons, beq_iff_eq]
  split <;> omega

theorem lineBehind_append (line : Int) (cs ds : List Char) :
    lineBehind line (cs ++ ds) = lineBehind (lineBehind line cs) ds := by
  simp only [lineBehind, List.count_append]
  omega

variable {line : Int} {c : Char} {cs : List Char} {kind : LexemeKind} {n : Nat}

theorem scan_taken (n : Nat) (line : Int) (cs : List Char) :
    scan n line cs = scan 0 (lineBehind line (cs.take n)) (cs.drop n) := by
  induction cs generalizing n line with
  | nil => cases n <;> rfl
  | cons c cs ih =>
    cases n with
    | zero => simp
    | succ n =>
      rw [scan, ih, List.take_succ_cons, List.drop_succ_cons, lineBehind_cons]

theorem scan_none (h : Lexeme.first? c cs = none) :
    scan 0 line (c :: cs) = ⟨[], some (c, line)⟩ := by
  rw [scan, h]

theorem scan_some (h : Lexeme.first? c cs = some (kind, n)) :
    scan 0 line (c :: cs) =
      let rest := scan 0 (lineBehind line (c :: cs.take n)) (cs.drop n)
      ⟨⟨kind, String.ofList (c :: cs.take n), line⟩ :: rest.lexemes, rest.rejected⟩ := by
  rw [scan, h, lineBehind_cons]
  simp only [scan_taken n]

theorem scan_induction {P : Int → List Char → Prop} (nil : ∀ line, P line [])
    (none : ∀ line c cs, Lexeme.first? c cs = none → P line (c :: cs))
    (some : ∀ line c cs kind n, Lexeme.first? c cs = some (kind, n) →
      P (lineBehind line (c :: cs.take n)) (cs.drop n) → P line (c :: cs))
    (line : Int) (cs : List Char) : P line cs := by
  induction h : cs.length using Nat.strongRecOn generalizing line cs with
  | ind m ih =>
    cases cs with
    | nil => exact nil line
    | cons c cs =>
      cases hf : Lexeme.first? c cs with
      | none => exact none line c cs hf
      | some r =>
        refine some line c cs r.1 r.2 hf (ih (cs.drop r.2).length ?_ _ _ rfl)
        rw [← h, List.length_drop, List.length_cons]
        omega

theorem mem_scan {l : Lexeme} (h : l ∈ (scan 0 line cs).lexemes) :
    ∃ before c rest n, cs = before ++ c :: rest ∧ Lexeme.first? c rest = some (l.kind, n) ∧
      l.text = String.ofList (c :: rest.take n) ∧ l.line = lineBehind line before := by
  induction line, cs using scan_induction with
  | nil line => cases h
  | none line c cs hf =>
    rw [scan_none hf] at h
    cases h
  | some line c cs kind n hf ih =>
    rw [scan_some hf] at h
    obtain rfl | h := List.mem_cons.1 h
    · exact ⟨[], c, cs, n, rfl, hf, rfl, (lineBehind_nil line).symm⟩
    · obtain ⟨before, d, rest, m, hcs, hf', ht, hl⟩ := ih h
      refine ⟨c :: cs.take n ++ before, d, rest, m, ?_, hf', ht, ?_⟩
      · rw [List.append_assoc, ← hcs, List.cons_append, List.take_append_drop]
      · rw [hl, lineBehind_append]

end Lexed

namespace Lexeme

variable {c : Char} {cs : List Char}

theorem token?_eq_some {l : Lexeme} {t : Token} (h : l.token? = some t) :
    t.text = l.text ∧ t.line = l.line := by
  unfold token? at h
  split at h <;> cases h <;> exact ⟨rfl, rfl⟩

theorem float?_eq_none (h : c.isDigit = false) : float? c cs = none := by
  unfold float?
  simp only [h]

theorem key?_eq_none (h : isNameStart c = false) : key? c cs = none := by
  unfold key?
  simp only [h]

theorem modulePath?_eq_none (h : c.isUpper = false) : modulePath? c cs = none := by
  simp [modulePath?, h]

theorem name?_eq_none (h : isNameStart c = false) : name? c cs = none := by
  simp [name?, h]

theorem atom?_eq_none (h : c ≠ ':') : atom? c cs = none := by
  cases cs <;> simp [atom?, h]

theorem string?_eq_none (h : c ≠ '"') : string? c cs = none := by
  simp [string?, h]

theorem int?_eq_none (h : c.isDigit = false) : int? c cs = none := by
  simp [int?, h]

theorem first?_blank (h : isCodeBlank c) :
    first? c cs = some (.blank, (cs.takeWhile isCodeBlank).length) := by
  have hc : c = ' ' ∨ c = '\t' ∨ c = '\x0c' ∨ c = '\r' ∨ c = '\n' := by
    simpa [isCodeBlank, or_assoc] using h
  have hd : c.isDigit = false ∧ isNameStart c = false ∧ c.isUpper = false ∧ c ≠ ':' ∧ c ≠ '"' := by
    rcases hc with rfl | rfl | rfl | rfl | rfl <;> decide
  obtain ⟨hd, hn, hu, ha, hs⟩ := hd
  simp [first?, float?_eq_none hd, key?_eq_none hn, modulePath?_eq_none hu, name?_eq_none hn,
    atom?_eq_none ha, string?_eq_none hs, int?_eq_none hd, blank?, h]

end Lexeme

end EmbeddedTemplate.Code
