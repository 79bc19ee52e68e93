import WitnessReplay.Proofs.TokenCover

/-!
# Findings and positions

Which calls and functions are found in a forest depends on its tokens only, not on where they
stand: without positions, the findings of a forest are the findings of the forest without
positions.
-/

namespace WitnessReplay.Source

open Text List

namespace Token

mutual

def unplaced : Token → Token
  | group d children _ _ => group d (unplacedAll children) default 0
  | word text _ _ => word text default 0
  | literal text _ _ => literal text default 0
  | symbol c _ _ => symbol c default 0

def unplacedAll : List Token → List Token
  | [] => []
  | t :: ts => t.unplaced :: unplacedAll ts

end

@[simp] theorem unplacedAll_eq_map (ts : List Token) : unplacedAll ts = ts.map unplaced := by
  induction ts with
  | nil => rfl
  | cons t ts ih => rw [unplacedAll, ih, map_cons]

@[simp] theorem unplaced_group (d : Delimiter) (children : List Token) (span : Span) (line : Nat) :
    (group d children span line).unplaced = group d (children.map unplaced) default 0 := by
  rw [unplaced, unplacedAll_eq_map]

variable (t : Token)

@[simp] theorem span_unplaced : t.unplaced.span = default := by
  cases t <;> rfl

@[simp] theorem line_unplaced : t.unplaced.line = 0 := by
  cases t <;> rfl

@[simp] theorem word?_unplaced : t.unplaced.word? = t.word? := by
  cases t <;> rfl

@[simp] theorem isWord_unplaced (text : String) : t.unplaced.isWord text = t.isWord text := by
  simp [isWord]

@[simp] theorem isWordIn_unplaced (words : List String) :
    t.unplaced.isWordIn words = t.isWordIn words := by
  simp [isWordIn]

@[simp] theorem isSymbol_unplaced (c : Char) : t.unplaced.isSymbol c = t.isSymbol c := by
  cases t <;> rfl

@[simp] theorem children?_unplaced (d : Delimiter) : t.unplaced.children? d = (t.children? d).map
    (·.map unplaced) := by
  cases t with
  | group d' children span line =>
    simp only [unplaced_group, children?]
    split <;> rfl
  | _ => rfl

@[simp] theorem isGroup_unplaced (d : Delimiter) : t.unplaced.isGroup d = t.isGroup d := by
  simp [isGroup]

end Token

def Call.unplaced (c : Call) : Call :=
  { c with line := 0, span := default }

def Function.unplaced (f : Function) : Function :=
  { f with
    line := 0, nameSpan := default, paramsSpan := default,
    firstReturnLine := f.firstReturnLine.map fun _ => 0 }

namespace Findings

def unplaced (found : Findings) : Findings :=
  ⟨found.calls.map Call.unplaced, found.functions.map Function.unplaced⟩

@[simp] theorem calls_append (a b : Findings) : (a ++ b).calls = a.calls ++ b.calls := rfl

@[simp] theorem functions_append (a b : Findings) :
    (a ++ b).functions = a.functions ++ b.functions := rfl

@[simp] theorem unplaced_empty : unplaced {} = {} := rfl

@[simp] theorem unplaced_append (a b : Findings) :
    (a ++ b).unplaced = a.unplaced ++ b.unplaced := by
  simp only [unplaced, calls_append, functions_append, map_append]
  rfl

end Findings

section Shared

variable (ts : List Token)

theorem qualifierBefore_unplaced : qualifierBefore (ts.map Token.unplaced) =
    ((qualifierBefore ts).1, (qualifierBefore ts).2.map Token.unplaced) := by
  fun_induction qualifierBefore ts with
  | case1 dot t before hdot w hw words start heq ih =>
    rw [map_cons, map_cons, qualifierBefore.eq_def]
    simp_all
  | case2 dot t hdot hw =>
    rw [map_cons, map_cons, qualifierBefore.eq_def]
    simp_all
  | case3 dot t hdot hw u before ht w hu words start heq ih =>
    rw [map_cons, map_cons, map_cons, qualifierBefore.eq_def]
    simp_all
  | case4 dot t hdot hw u before hnot =>
    rw [map_cons, map_cons, map_cons, qualifierBefore.eq_def]
    simp_all
  | case5 dot t before hdot =>
    rw [map_cons, map_cons, qualifierBefore.eq_def]
    simp_all
  | case6 before hnot =>
    match before, hnot with
    | [], _ => rfl
    | [t], _ => rfl
    | dot :: t :: before, hnot => exact absurd rfl (hnot dot t before)

theorem countParams_unplaced : countParams (ts.map Token.unplaced) = countParams ts := by
  have hgo (angle : Nat) (filled : Bool) :
      countParams.go angle filled (ts.map Token.unplaced) = countParams.go angle filled ts := by
    induction ts generalizing angle filled with
    | nil => rfl
    | cons t ts ih => simp only [map_cons, countParams.go, Token.isSymbol_unplaced, ih]
  exact hgo 0 false

theorem leadingReturn_unplaced : leadingReturn (ts.map Token.unplaced) =
    (leadingReturn ts).map fun _ => 0 := by
  cases ts with
  | nil => rfl
  | cons t ts =>
    simp only [leadingReturn, map_cons, Token.isWord_unplaced, Token.line_unplaced]
    split <;> rfl

end Shared

namespace Java

theorem endsType_unplaced (t : Token) : endsType t.unplaced = endsType t := by
  cases t with
  | group d children span line => cases d <;> rfl
  | _ => rfl

def Declaration.unplaced : Declaration → Declaration
  | block body => block (body.map Token.unplaced)
  | bodiless => bodiless

theorem afterThrows_unplaced (after : List Token) :
    afterThrows (after.map Token.unplaced) = (afterThrows after).map Token.unplaced := by
  cases after with
  | nil => rfl
  | cons t after =>
    simp only [afterThrows, map_cons, Token.isWord_unplaced]
    split
    · rw [← map_cons, dropWhile_map]
      simp [Function.comp_def]
    · rfl

theorem declaration?_unplaced (previous : Option Token) (after : List Token) :
    declaration? (previous.map Token.unplaced) (after.map Token.unplaced) =
      (declaration? previous after).map Declaration.unplaced := by
  simp only [declaration?, Option.any_map, Token.isSymbol_unplaced, endsType_unplaced,
    afterThrows_unplaced]
  split
  · rfl
  · cases afterThrows after with
    | nil => rfl
    | cons t rest =>
      simp only [map_cons, Token.children?_unplaced, Token.isSymbol_unplaced]
      cases t.children? .brace with
      | some body => rfl
      | none =>
        simp only [Option.map_none]
        split <;> rfl

theorem findingsAt_unplaced (depth : Nat) (before : List Token) (t : Token) (after : List Token) :
    findingsAt depth (before.map Token.unplaced) t.unplaced (after.map Token.unplaced) =
      (findingsAt depth before t after).unplaced := by
  cases after with
  | nil => cases t <;> rfl
  | cons params after =>
    cases hname : t.word? with
    | none => simp [findingsAt, hname]
    | some text =>
      cases hparams : params.children? .paren with
      | none => simp [findingsAt, hname, hparams]
      | some paramTokens =>
        simp only [findingsAt, map_cons, Token.word?_unplaced, hname,
          Token.children?_unplaced, hparams, Option.map_some, qualifierBefore_unplaced,
          head?_map, Option.any_map, Token.isSymbol_unplaced, Token.isWord_unplaced,
          declaration?_unplaced, countParams_unplaced, Token.span_unplaced, Token.line_unplaced]
        split
        · rfl
        · cases declaration? before.head? after with
          | none => rfl
          | some declaration =>
            cases declaration with
            | block body =>
              simp [Declaration.unplaced, Findings.unplaced, Function.unplaced,
                leadingReturn_unplaced]
            | bodiless => rfl

theorem findings_unplaced (depth : Nat) (before tokens : List Token) :
    findings depth (before.map Token.unplaced) (tokens.map Token.unplaced) =
      (findings depth before tokens).unplaced := by
  fun_induction findings depth before tokens with
  | case1 => simp [findings]
  | case2 depth before d children span line after ihInside ihAfter =>
    rw [map_nil] at ihInside
    rw [map_cons, Token.unplaced_group] at ihAfter
    rw [map_cons, Token.unplaced_group, findings, Findings.unplaced_append, ihInside, ihAfter]
  | case3 depth before t after hgroup ih =>
    rw [map_cons] at ih
    rw [map_cons, findings, Findings.unplaced_append, findingsAt_unplaced, ih]
    intro d children span line heq
    cases t with
    | group d' children' span' line' => exact hgroup _ _ _ _ rfl
    | _ => cases heq

end Java

namespace Kotlin

theorem firstReturnLine_unplaced (after : List Token) :
    firstReturnLine (after.map Token.unplaced) = (firstReturnLine after).map fun _ => 0 := by
  induction after with
  | nil => rfl
  | cons t after ih =>
    simp only [map_cons, firstReturnLine, Token.children?_unplaced, Token.isSymbol_unplaced,
      Token.isWordIn_unplaced, ih]
    cases t.children? .brace with
    | some block => exact leadingReturn_unplaced block
    | none =>
      simp only [Option.map_none]
      split
      · cases after <;> simp
      · split <;> rfl

theorem paramsOf?_unplaced (after : List Token) : paramsOf? (after.map Token.unplaced) =
    (paramsOf? after).map fun (front, params, rest) =>
      (front.map Token.unplaced, params.unplaced, rest.map Token.unplaced) := by
  induction after with
  | nil => rfl
  | cons t after ih =>
    simp only [map_cons, paramsOf?, Token.isGroup_unplaced, Token.isSymbol_unplaced, ih]
    split
    · rfl
    · split
      · rfl
      · cases paramsOf? after <;> rfl

theorem declared?_unplaced (depth : Nat) (after : List Token) :
    declared? depth (after.map Token.unplaced) = (declared? depth after).map fun (n, f) =>
    (n, f.unplaced) := by
  unfold declared?
  rw [paramsOf?_unplaced]
  cases paramsOf? after with
  | none => rfl
  | some found =>
    obtain ⟨front, params, rest⟩ := found
    simp only [Option.map_some, Option.bind_eq_bind, Option.bind_some, getLast?_map, length_map]
    cases front.getLast? with
    | none => rfl
    | some name =>
      simp only [Option.map_some, Option.bind_some, Token.word?_unplaced]
      cases name.word? with
      | none => rfl
      | some text =>
        have hcount : countParams (((params.children? .paren).map (·.map Token.unplaced)).getD []) =
            countParams ((params.children? .paren).getD []) := by
          cases params.children? .paren with
          | none => rfl
          | some children => exact countParams_unplaced children
        simp [Function.unplaced, firstReturnLine_unplaced, hcount]

theorem declarations_unplaced (depth i : Nat) (tokens : List Token) :
    declarations depth i (tokens.map Token.unplaced) =
      (declarations depth i tokens).map fun (n, f) => (n, f.unplaced) := by
  induction tokens generalizing i with
  | nil => rfl
  | cons t after ih =>
    simp only [map_cons, declarations, Token.isWord_unplaced, declared?_unplaced, ih]
    cases t.isWord "fun" with
    | false => rfl
    | true => cases declared? depth after <;> rfl

theorem callAt?_unplaced (before : List Token) (t : Token) (after : List Token) :
    callAt? (before.map Token.unplaced) t.unplaced (after.map Token.unplaced) =
      (callAt? before t after).map Call.unplaced := by
  unfold callAt?
  rw [Token.word?_unplaced, head?_map]
  cases t.word? with
  | none => rfl
  | some text =>
    cases after.head? with
    | none => rfl
    | some next =>
      simp only [Option.map_some, Option.bind_eq_bind, Option.bind_some, head?_map,
        Option.any_map, Token.isGroup_unplaced, Token.isSymbol_unplaced, Token.isWordIn_unplaced,
        qualifierBefore_unplaced]
      split
      · rfl
      · split
        · rfl
        · simp [Call.unplaced]

theorem leaf_unplaced (declared : List Nat) (before : List Token) (t : Token) (after : List Token) :
    (if declared.contains (before.map Token.unplaced).length then {}
      else { calls := (callAt? (before.map Token.unplaced) t.unplaced
        (after.map Token.unplaced)).toList } : Findings) =
      (if declared.contains before.length then {} else
      { calls := (callAt? before t after).toList } : Findings).unplaced := by
  rw [length_map, callAt?_unplaced]
  split
  · rfl
  · cases callAt? before t after <;> rfl

mutual

theorem findings_unplaced (depth : Nat) (tokens : List Token) :
    findings depth (tokens.map Token.unplaced) = (findings depth tokens).unplaced := by
  have hnested := nested_unplaced depth ((declarations depth 0 tokens).map (·.1)) [] tokens
  rw [map_nil] at hnested
  rw [findings, findings, declarations_unplaced, Findings.unplaced_append, ← hnested]
  simp [Findings.unplaced, Function.comp_def]
termination_by (sizeOf tokens, 1)

theorem nested_unplaced (depth : Nat) (declared : List Nat) (before tokens : List Token) :
    nested depth declared (before.map Token.unplaced) (tokens.map Token.unplaced) =
      (nested depth declared before tokens).unplaced := by
  cases tokens with
  | nil => simp [nested]
  | cons t after =>
    have hafter := nested_unplaced depth declared (t :: before) after
    have hleaf := leaf_unplaced declared before t after
    rw [map_cons] at hafter ⊢
    cases t with
    | group d children span line =>
      rw [Token.unplaced_group] at hafter ⊢
      rw [nested, nested, Findings.unplaced_append, hafter,
        findings_unplaced (d.inner depth) children]
    | _ =>
      rw [Token.unplaced] at hafter hleaf ⊢
      rw [nested, nested, Findings.unplaced_append, hafter, hleaf]
      all_goals exact fun _ _ _ _ heq => nomatch heq
termination_by (sizeOf tokens, 0)

end

end Kotlin

theorem findings_unplaced (language : Language) (tokens : List Token) :
    findings language (tokens.map Token.unplaced) = (findings language tokens).unplaced := by
  cases language
  · exact Java.findings_unplaced 0 [] tokens
  · exact Kotlin.findings_unplaced 0 tokens

end WitnessReplay.Source
