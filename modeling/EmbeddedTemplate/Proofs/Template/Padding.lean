import EmbeddedTemplate.Proofs.Code.Parsing
import EmbeddedTemplate.Proofs.Code.Splitting
import EmbeddedTemplate.Proofs.Outcome
import EmbeddedTemplate.Template.Compile
import Mathlib

namespace EmbeddedTemplate

namespace Code

/-- The fault as code with this first line has it: that of a literal is on the first line. -/
def CodeFault.reported (line : Int) : CodeFault → CodeFault
  | ⟨.literal fault, _⟩ => ⟨.literal fault, line⟩
  | fault => fault

def padded (k : Nat) (code : String) : String := String.ofList (List.replicate k '\n') ++ code

variable {line : Int} {code blanks : String} {lexed lexed' : Lexed}

theorem ofCode_blanks (hb : ∀ c ∈ blanks.toList, isCodeBlank c) :
    (Lexed.ofCode (blanks ++ code) line).tokens =
        (Lexed.ofCode code (lastLine blanks line)).tokens ∧
      (Lexed.ofCode (blanks ++ code) line).rejected =
        (Lexed.ofCode code (lastLine blanks line)).rejected := by
  rw [Lexed.ofCode, String.toList_append]
  exact Lexed.scan_blanks hb

theorem reported_faultAt (lexed : Lexed) (left : Nat) (l : Int) :
    (faultAt code line lexed left).reported l = faultAt code line lexed left := by
  unfold faultAt
  dsimp only
  split <;> rfl

theorem faultAt_blanks (ht : lexed.tokens = lexed'.tokens) (hr : lexed.rejected = lexed'.rejected)
    (left : Nat) : faultAt (blanks ++ code) line lexed left =
      faultAt code (lastLine blanks line) lexed' left := by
  simp only [faultAt, ht, hr, lastLine_append]

theorem parse_blanks [CharacterNames] (hb : ∀ c ∈ blanks.toList, isCodeBlank c) :
    parse (blanks ++ code) line =
    (parse code (lastLine blanks line)).mapError (CodeFault.reported line) := by
  obtain ⟨ht, hr⟩ : (Lexed.ofCode (blanks ++ code) line).tokens = _ ∧ _ = _ := ofCode_blanks hb
  unfold parse
  simp only [ht, hr, faultAt_blanks ht hr]
  split
  · next p hp hrejected =>
    cases p.toTree <;> rfl
  · rw [mapError_error, reported_faultAt]
  · rw [mapError_error, reported_faultAt]

theorem line_of_literal [CharacterNames] {fault : LiteralFault} {l : Int}
    (h : parse code line = .error ⟨.literal fault, l⟩) : l = line := by
  have he := explains_parse code line
  rw [h] at he
  exact he.2.1

theorem CodeFault.reported_of_ne {fault : CodeFault} (h : ∀ e, fault.cause ≠ .literal e)
    (line : Int) : fault.reported line = fault := by
  obtain ⟨cause, l⟩ := fault
  cases cause with
  | literal e => exact absurd rfl (h e)
  | _ => rfl

theorem lastLine_padded (k : Nat) (line : Int) :
    lastLine (String.ofList (List.replicate k '\n')) line = line + k := by
  rw [lastLine, String.toList_ofList, List.count_replicate_self]

theorem parse_padded [CharacterNames] (k : Nat) (code : String) (line : Int) :
    parse (padded k code) line =
    (parse code (line + k)).mapError (CodeFault.reported line) := by
  rw [padded, parse_blanks, lastLine_padded]
  intro c hc
  rw [String.toList_ofList] at hc
  rw [List.eq_of_mem_replicate hc]
  rfl

end Code

namespace Template

open EmbeddedTemplate.Code

/--
So many line breaks in front of code count as a first line that much later, in the tree and in each
fault, exactly if the code does not fail for a literal without a value. That fault is reported on
the first line given.
-/
theorem parseCode_padded_iff [CharacterNames] (file code : String) (line : Int) (k : Nat) :
    (parseCode file (padded k code) line = parseCode file code (line + k) ↔
        k = 0 ∨ ∀ fault, parse code (line + k) ≠ .error ⟨.literal fault, line + k⟩) ∧
      ∀ fault, parse code (line + k) = .error ⟨.literal fault, line + k⟩ →
        parseCode file (padded k code) line =
          .error (.source ⟨.expression, .literal fault, some file, some line⟩) := by
  have hliteral (fault : LiteralFault)
      (h : parse code (line + k) = .error ⟨.literal fault, line + k⟩) :
      parseCode file (padded k code) line =
        .error (.source ⟨.expression, .literal fault, some file, some line⟩) := by
    rw [parseCode, parse_padded, h]
    rfl
  refine ⟨⟨fun heq => ?_, fun h => ?_⟩, hliteral⟩
  · refine or_iff_not_imp_right.2 fun h => ?_
    obtain ⟨fault, h⟩ := not_forall_not.1 h
    rw [hliteral fault h, parseCode, h] at heq
    have : line = line + k := by simpa using heq
    omega
  · rw [parseCode, parseCode, parse_padded]
    cases hparse : parse code (line + k) with
    | ok tree => rfl
    | error fault =>
      rw [mapError_error]
      -- Only a literal is reported elsewhere, and only if there are line breaks.
      by_cases hcause : ∃ e, fault.cause = .literal e
      · obtain ⟨cause, l⟩ := fault
        obtain ⟨e, rfl⟩ := hcause
        obtain rfl := line_of_literal hparse
        obtain rfl := h.resolve_right fun h => h e hparse
        simp [CodeFault.reported]
      · rw [CodeFault.reported_of_ne fun e he => hcause ⟨e, he⟩]

theorem parseCode_padded_bracket :
    parseCode "nofile" (padded 2 "a )") 1 = parseCode "nofile" "a )" 3 ∧
      ∃ e, parse "\"\\x\"" 2 = .error ⟨.literal e, 2⟩ ∧
        parseCode "nofile" (padded 1 "\"\\x\"") 1 =
          .error (.source ⟨.expression, .literal e, some "nofile", some 1⟩) := by
  have hbracket : parse "a )" 3 = .error ⟨.before ")", 3⟩ := by cbv
  have hescape : parse "\"\\x\"" 2 =
      .error ⟨.literal (.badEscape (.truncated 'x' 2) 0 1 1), 2⟩ := by cbv
  constructor
  · refine (parseCode_padded_iff "nofile" "a )" 1 2).1.2 (.inr fun e h => ?_)
    cases hbracket.symm.trans h
  · exact ⟨_, hescape, (parseCode_padded_iff "nofile" "\"\\x\"" 1 1).2 _ hescape⟩

theorem parseCode_padded_ne :
    parseCode "nofile" (padded 1 "\"\\x\"") 1 ≠ parseCode "nofile" "\"\\x\"" 2 := by
  cbv
  simp

end Template

end EmbeddedTemplate
