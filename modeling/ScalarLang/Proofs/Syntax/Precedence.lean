import Mathlib.Data.List.Induction
import ScalarLang.Proofs.Syntax.Items

/-! How infix operators group their operands. A sequence of operands with operators between them can
be grouped in many ways, but in one way only that agrees with the binding powers of the operators:
the operand between two operators goes to the right one if that binds at least as tightly as the left
one does on its right. The parser finds this grouping. -/

namespace ScalarLang

/-! ### Sequences and groupings -/

/-- Operands with infix operators between them. -/
structure Sequence (α : Type) where
  first : α
  /-- Each operator with the operand behind it. -/
  rest : List (Char × α)

namespace Sequence

variable {α : Type}

/-- Two sequences with an operator between them. -/
def join (s : Sequence α) (op : Char) (t : Sequence α) : Sequence α :=
  ⟨s.first, s.rest ++ (op, t.first) :: t.rest⟩

/-- The sequence with one more operand. -/
def push (s : Sequence α) (op : Char) (a : α) : Sequence α := s.join op ⟨a, []⟩

/-- A sequence is one operand, or has a last one. -/
@[elab_as_elim]
theorem pushRec {motive : Sequence α → Prop} (single : ∀ a, motive ⟨a, []⟩)
    (push : ∀ s op a, motive s → motive (s.push op a)) (s : Sequence α) : motive s := by
  obtain ⟨first, rest⟩ := s
  induction rest using List.reverseRecOn with
  | nil => exact single first
  | append_singleton rest x ih => exact push ⟨first, rest⟩ x.1 x.2 ih

theorem push_inj {s t : Sequence α} {op op' : Char} {a a' : α} (h : s.push op a = t.push op' a') :
    s = t ∧ op = op' ∧ a = a' := by
  obtain ⟨first, rest⟩ := s
  obtain ⟨first', rest'⟩ := t
  simpa [push, join, and_assoc] using h

/-- All operators of the sequence are known. -/
def Known (ops : Operators) (s : Sequence α) : Prop := ∀ x ∈ s.rest, (ops.find? x.1).isSome

theorem known_join_iff {ops : Operators} {s t : Sequence α} {op : Char} :
    (s.join op t).Known ops ↔ s.Known ops ∧ (ops.find? op).isSome ∧ t.Known ops := by
  simp [Known, join, or_imp, forall_and]

theorem join_push (s t : Sequence α) (o op : Char) (a : α) :
    s.join o (t.push op a) = (s.join o t).push op a := by
  simp [join, push]

end Sequence

/-- A grouping of operands by infix operators. -/
inductive Grouping (α : Type) where
  | operand (a : α)
  | node (left : Grouping α) (op : Char) (right : Grouping α)

namespace Grouping

variable {α : Type}

/-- The operands and operators from the left to the right. -/
def reading : Grouping α → Sequence α
  | operand a => ⟨a, []⟩
  | node left op right => left.reading.join op right.reading

/-- The operators on the way to the first operand. -/
def leftSpine : Grouping α → List Char
  | operand _ => []
  | node left op _ => op :: left.leftSpine

/-- The operators on the way to the last operand. -/
def rightSpine : Grouping α → List Char
  | operand _ => []
  | node _ op right => op :: right.rightSpine

end Grouping

namespace Operators

variable {ops : Operators} {o q : Char}

/-- The operand between `o` and `q` goes to `q`. -/
def Passes (ops : Operators) (o q : Char) : Prop :=
  ∃ power ∈ ops.power? o, ∃ power' ∈ ops.power? q, power.right ≤ power'.left

/-- The operand between `o` and `q` stays with `o`. -/
def Retains (ops : Operators) (o q : Char) : Prop :=
  ∃ power ∈ ops.power? o, ∃ power' ∈ ops.power? q, power'.left < power.right

instance : Decidable (ops.Passes o q) :=
  inferInstanceAs (Decidable (∃ power ∈ ops.power? o, ∃ power' ∈ ops.power? q, _))

theorem Passes.right_le (h : ops.Passes o q) {power power' : BindingPower}
    (ho : ops.power? o = some power) (hq : ops.power? q = some power') :
    power.right ≤ power'.left := by
  simpa [Passes, ho, hq] using h

theorem Retains.left_lt (h : ops.Retains o q) {power power' : BindingPower}
    (ho : ops.power? o = some power) (hq : ops.power? q = some power') :
    power'.left < power.right := by
  simpa [Retains, ho, hq] using h

theorem not_passes_iff (ho : (ops.find? o).isSome) (hq : (ops.find? q).isSome) :
    ¬ops.Passes o q ↔ ops.Retains o q := by
  obtain ⟨power, ho⟩ := exists_power ho
  obtain ⟨power', hq⟩ := exists_power hq
  simp [Passes, Retains, ho, hq]

theorem Retains.not_passes (h : ops.Retains o q) : ¬ops.Passes o q := by
  obtain ⟨power, ho, power', hq, hlt⟩ := h
  simp_all [Passes]

end Operators

namespace Grouping

variable {α : Type} {ops : Operators} {op : Char} {a : α} {t : Grouping α}

/-- At every operator, the operands on both sides belong to it and not to its neighbours. -/
def Ordered (ops : Operators) : Grouping α → Prop
  | operand _ => True
  | node left op right => left.Ordered ops ∧ right.Ordered ops ∧
      (∀ q ∈ right.leftSpine, ops.Passes op q) ∧ ∀ p ∈ left.rightSpine, ops.Retains p op

/-! ### One more operand -/

/-- Adds an operator and its right operand at the end, below the last operator that passes its
operand on. -/
def insert (ops : Operators) (op : Char) (a : α) : Grouping α → Grouping α
  | operand b => node (operand b) op (operand a)
  | node left o right =>
    if (o :: right.rightSpine).any (ops.Passes · op) then node left o (right.insert ops op a)
    else node (node left o right) op (operand a)

theorem insert_of_passes {left right : Grouping α} {o : Char}
    (h : ∃ p ∈ o :: right.rightSpine, ops.Passes p op) :
    (node left o right).insert ops op a = node left o (right.insert ops op a) := by
  rw [insert, if_pos (by simpa using h)]

/-- An operator that gets no operand passed on has all that comes before it on its left. -/
theorem insert_of_not_passes (h : ∀ p ∈ t.rightSpine, ¬ops.Passes p op) :
    t.insert ops op a = node t op (operand a) := by
  cases t with
  | operand b => rfl
  | node left o right =>
    rw [insert, if_neg]
    simpa [rightSpine] using h

theorem reading_insert (ops : Operators) (op : Char) (a : α) (t : Grouping α) :
    (t.insert ops op a).reading = t.reading.push op a := by
  induction t with
  | operand b => rfl
  | node left o right _ ih =>
    rw [insert]
    split
    · rw [reading, ih, Sequence.join_push, reading]
    · rfl

/-- The way to the first operand is as it was, or begins at the new operator. -/
theorem leftSpine_insert (ops : Operators) (op : Char) (a : α) (t : Grouping α) :
    (t.insert ops op a).leftSpine = t.leftSpine ∨
      (t.insert ops op a).leftSpine = op :: t.leftSpine ∧ ∀ p ∈ t.rightSpine, ¬ops.Passes p op := by
  by_cases h : ∃ p ∈ t.rightSpine, ops.Passes p op
  · cases t with
    | operand b => simp [rightSpine] at h
    | node left o right => exact .inl (by rw [insert_of_passes h, leftSpine, leftSpine])
  · have h : ∀ p ∈ t.rightSpine, ¬ops.Passes p op := fun p hp hpasses => h ⟨p, hp, hpasses⟩
    exact .inr ⟨by rw [insert_of_not_passes h, leftSpine], h⟩

theorem subset_leftSpine_insert (ops : Operators) (op : Char) (a : α) (t : Grouping α) :
    t.leftSpine ⊆ (t.insert ops op a).leftSpine := by
  rcases t.leftSpine_insert ops op a with h | ⟨h, -⟩ <;> simp [h]

theorem known_rightSpine (h : t.reading.Known ops) : ∀ p ∈ t.rightSpine, (ops.find? p).isSome := by
  induction t with
  | operand b => simp [rightSpine]
  | node left o right _ ih =>
    obtain ⟨-, ho, hright⟩ := Sequence.known_join_iff.1 h
    exact List.forall_mem_cons.2 ⟨ho, ih hright⟩

theorem Ordered.insert (h : t.Ordered ops) (ht : t.reading.Known ops)
    (hop : (ops.find? op).isSome) :
    (t.insert ops op a).Ordered ops := by
  induction t with
  | operand b => simp [Grouping.insert, Ordered, Grouping.leftSpine, Grouping.rightSpine]
  | node left o right _ ih =>
    by_cases hp : ∃ p ∈ o :: right.rightSpine, ops.Passes p op
    · rw [insert_of_passes hp]
      obtain ⟨hleft, hright, hpasses, hretains⟩ := h
      refine ⟨hleft, ih hright (Sequence.known_join_iff.1 ht).2.2, ?_, hretains⟩
      rcases right.leftSpine_insert ops op a with he | ⟨he, hnot⟩
      · rwa [he]
      · -- no operator of the right side passes its operand on, so this one does
        rw [he]
        refine List.forall_mem_cons.2 ⟨?_, hpasses⟩
        obtain ⟨p, hmem, hp⟩ := hp
        rcases List.mem_cons.1 hmem with rfl | hmem
        · exact hp
        · exact absurd hp (hnot p hmem)
    · have hp (p : Char) (hmem : p ∈ (node left o right).rightSpine) : ¬ops.Passes p op :=
        fun h => hp ⟨p, hmem, h⟩
      rw [insert_of_not_passes hp]
      refine ⟨h, trivial, by simp [Grouping.leftSpine], fun p hmem => ?_⟩
      exact (Operators.not_passes_iff (known_rightSpine ht p hmem) hop).1 (hp p hmem)

/-- Every ordered grouping comes from a smaller one with one more operand. -/
theorem Ordered.exists_insert {left right : Grouping α} {o : Char}
    (h : (node left o right).Ordered ops) :
    ∃ (t : Grouping α) (op : Char) (a : α), t.Ordered ops ∧
      node left o right = t.insert ops op a := by
  induction right generalizing left o with
  | operand a =>
    obtain ⟨hleft, -, -, hretains⟩ := h
    refine ⟨left, o, a, hleft, ?_⟩
    rw [insert_of_not_passes fun p hp => (hretains p hp).not_passes]
  | node left' o' right' _ ih =>
    obtain ⟨hleft, hright, hpasses, hretains⟩ := h
    obtain ⟨t, op, a, ht, he⟩ := ih hright
    rw [he] at hpasses ⊢
    refine ⟨node left o t, op, a, ⟨hleft, ht, fun q hq => ?_, hretains⟩, ?_⟩
    · exact hpasses q (t.subset_leftSpine_insert ops op a hq)
    · refine (insert_of_passes ?_).symm
      by_cases hp : ∃ p ∈ t.rightSpine, ops.Passes p op
      · obtain ⟨p, hmem, hp⟩ := hp
        exact ⟨p, List.mem_cons_of_mem _ hmem, hp⟩
      · rw [insert_of_not_passes fun p hmem hp' => hp ⟨p, hmem, hp'⟩] at hpasses
        exact ⟨o, List.mem_cons_self, hpasses op List.mem_cons_self⟩

/-- The ordered grouping of a sequence. -/
def ofSequence (ops : Operators) (s : Sequence α) : Grouping α :=
  s.rest.foldl (fun t x => t.insert ops x.1 x.2) (operand s.first)

theorem ofSequence_push (ops : Operators) (s : Sequence α) (op : Char) (a : α) :
    ofSequence ops (s.push op a) = (ofSequence ops s).insert ops op a := by
  simp [ofSequence, Sequence.push, Sequence.join]

theorem ofSequence_spec (s : Sequence α) (hs : s.Known ops) :
    (ofSequence ops s).reading = s ∧ (ofSequence ops s).Ordered ops := by
  induction s using Sequence.pushRec with
  | single a => exact ⟨rfl, trivial⟩
  | push s op a ih =>
    obtain ⟨hs, hop, -⟩ := Sequence.known_join_iff.1 hs
    obtain ⟨hreading, hordered⟩ := ih hs
    rw [ofSequence_push, reading_insert, hreading]
    exact ⟨rfl, hordered.insert (hreading.symm ▸ hs) hop⟩

/-- There is no other ordered grouping of a sequence. -/
theorem Ordered.eq_ofSequence (h : t.Ordered ops) : t = ofSequence ops t.reading := by
  -- without its last operand the grouping is that of the sequence without it
  generalize hs : t.reading = s
  induction s using Sequence.pushRec generalizing t with
  | single a =>
    cases t with
    | operand b => cases hs; rfl
    | node left o right => simp [reading, Sequence.join] at hs
  | push s op a ih =>
    cases t with
    | operand b => simp [reading, Sequence.push, Sequence.join] at hs
    | node left o right =>
      obtain ⟨t, op', a', ht, he⟩ := h.exists_insert
      rw [he, reading_insert] at hs
      obtain ⟨hreading, rfl, rfl⟩ := Sequence.push_inj hs
      rw [he, ofSequence_push, ← ih ht hreading]

end Grouping

/-! ### Association -/

theorem Operators.passes_iff_of_eq {ops : Operators} {o q : Char} (hq : (ops.find? q).isSome)
    (h : ops.find? q = ops.find? o) : ops.Passes o q ↔ o = '=' ∨ q = '=' := by
  obtain ⟨precedence, hq⟩ := Option.isSome_iff_exists.1 hq
  have ho : ops.find? o = some precedence := h ▸ hq
  -- the doubled precedence is even, so one can be added to it
  have hlt : 2 * precedence < 2 * precedence + 1 := by
    rw [UInt32.lt_iff_toNat_lt, UInt32.toNat_add, UInt32.toNat_mul]
    show 2 * precedence.toNat % 2 ^ 32 < (2 * precedence.toNat % 2 ^ 32 + 1) % 2 ^ 32
    omega
  have hle := UInt32.le_of_lt hlt
  have hnot := UInt32.not_le.2 hlt
  simp only [Passes, power?, ho, hq]
  by_cases h₁ : o = '=' <;> by_cases h₂ : q = '=' <;> simp [h₁, h₂, hle, hnot]

namespace Sequence

variable {α : Type}

/-- All operands but the last are grouped first. -/
def leftward (s : Sequence α) : Grouping α :=
  s.rest.foldl (fun t x => .node t x.1 (.operand x.2)) (.operand s.first)

theorem leftward_push (s : Sequence α) (op : Char) (a : α) :
    (s.push op a).leftward = .node s.leftward op (.operand a) := by
  simp [leftward, push, join]

/-- All operands but the first are grouped first. -/
def rightwardFrom (a : α) : List (Char × α) → Grouping α
  | [] => .operand a
  | (op, b) :: rest => .node (.operand a) op (rightwardFrom b rest)

def rightward (s : Sequence α) : Grouping α := rightwardFrom s.first s.rest

end Sequence

namespace Grouping

variable {α : Type} {ops : Operators} {t : Grouping α}

/-- Neighbours of one precedence are grouped to the left, but to the right if one of them is an
assignment. -/
def Associates (ops : Operators) : Grouping α → Prop
  | operand _ => True
  | node left op right => left.Associates ops ∧ right.Associates ops ∧
      (∀ q ∈ right.leftSpine, ops.find? q = ops.find? op → op = '=' ∨ q = '=') ∧
      ∀ p ∈ left.rightSpine, ops.find? p = ops.find? op → p ≠ '=' ∧ op ≠ '='

theorem known_leftSpine (h : t.reading.Known ops) : ∀ q ∈ t.leftSpine, (ops.find? q).isSome := by
  induction t with
  | operand b => simp [leftSpine]
  | node left o right ih _ =>
    obtain ⟨hleft, ho, -⟩ := Sequence.known_join_iff.1 h
    exact List.forall_mem_cons.2 ⟨ho, ih hleft⟩

theorem Ordered.associates (h : t.Ordered ops) (ht : t.reading.Known ops) : t.Associates ops := by
  induction t with
  | operand b => trivial
  | node left o right ihl ihr =>
    obtain ⟨hleft, hright, hpasses, hretains⟩ := h
    obtain ⟨hl, ho, hr⟩ := Sequence.known_join_iff.1 ht
    refine ⟨ihl hleft hl, ihr hright hr, fun q hq he => ?_, fun p hp he => ?_⟩
    · exact (Operators.passes_iff_of_eq (known_leftSpine hr q hq) he).1 (hpasses q hq)
    · have hnot := (hretains p hp).not_passes
      rw [Operators.passes_iff_of_eq ho he.symm] at hnot
      exact not_or.1 hnot

/-- Operators of one precedence group to the left if none is an assignment. -/
theorem Ordered.eq_leftward (h : t.Ordered ops) {precedence : UInt32}
    (ht : ∀ x ∈ t.reading.rest, ops.find? x.1 = some precedence ∧ x.1 ≠ '=') :
    t = t.reading.leftward := by
  induction t with
  | operand b => rfl
  | node left o right ih _ =>
    obtain ⟨hleft, -, hpasses, -⟩ := h
    simp only [reading, Sequence.join, List.forall_mem_append, List.forall_mem_cons] at ht
    obtain ⟨hl, ⟨hfind, ho⟩, hr⟩ := ht
    cases right with
    | operand b =>
      show _ = (left.reading.push o b).leftward
      rw [Sequence.leftward_push, ← ih hleft hl]
    | node left' q right' =>
      -- the operand before `q` would go to it
      have hq : ops.find? q = some precedence ∧ q ≠ '=' := by
        apply hr (q, right'.reading.first)
        simp [reading, Sequence.join]
      have hpasses := hpasses q List.mem_cons_self
      rw [Operators.passes_iff_of_eq (by simp [hq.1]) (hq.1.trans hfind.symm)] at hpasses
      exact absurd hpasses (not_or.2 ⟨ho, hq.2⟩)

/-- Assignments group to the right. -/
theorem Ordered.eq_rightward (h : t.Ordered ops) (hknown : t.reading.Known ops)
    (ht : ∀ x ∈ t.reading.rest, x.1 = '=') : t = t.reading.rightward := by
  induction t with
  | operand b => rfl
  | node left o right _ ih =>
    obtain ⟨-, hright, -, hretains⟩ := h
    obtain ⟨-, hfind, hknown'⟩ := Sequence.known_join_iff.1 hknown
    simp only [reading, Sequence.join, List.forall_mem_append, List.forall_mem_cons] at ht
    obtain ⟨hl, rfl, hr⟩ := ht
    cases left with
    | operand b =>
      show _ = node (operand b) '=' right.reading.rightward
      rw [← ih hright hknown' hr]
    | node left' p right' =>
      have hp : p = '=' := by
        apply hl (p, right'.reading.first)
        simp [reading, Sequence.join]
      have hnot := (hretains p List.mem_cons_self).not_passes
      rw [hp, Operators.passes_iff_of_eq hfind rfl] at hnot
      simp at hnot

end Grouping

/-! ### Operands -/

/-- The tokens are an operand: a number, a name, a call or an expression in parentheses, with any
number of operators before it. Expressions inside are parsed on their own. -/
inductive IsFactor (ops : Operators) : List Token → Expr → Prop
  | number {v} : IsFactor ops [.number v] (.number v)
  | var {name} : IsFactor ops [.ident name] (.var name)
  | call {name} {args : List (List Token × Expr)} :
      (∀ arg ∈ args, (parseExpr ops 0 arg.1).Gives arg.2 []) →
      IsFactor ops (.ident name :: .openParen ::
        ([Token.comma].intercalate (args.map Prod.fst) ++ [.closeParen]))
        (.call name (args.map Prod.snd))
  | parens {tokens e} : (parseExpr ops 0 tokens).Gives e [] →
      IsFactor ops (.openParen :: (tokens ++ [.closeParen])) e
  | unary {c tokens e} : IsFactor ops tokens e → IsFactor ops (.op c :: tokens) (.unary c e)

/-- An operand of infix operators. -/
structure Factor (ops : Operators) where
  tokens : List Token
  expr : Expr
  isFactor : IsFactor ops tokens expr

def Sequence.tokens {ops : Operators} (s : Sequence (Factor ops)) : List Token :=
  s.first.tokens ++ s.rest.flatMap fun x => .op x.1 :: x.2.tokens

def Grouping.expr {ops : Operators} : Grouping (Factor ops) → Expr
  | operand a => a.expr
  | node left op right => .binary op left.expr right.expr

open ParseResult
open Phrase (Spelled)

/-- Whether the phrase is an expression. -/
def Phrase.isExpr : Phrase → Bool
  | whole .. | chain .. | operand .. => true
  | _ => false

section

variable {ops : Operators} {next : Option Token}

/-- An expression is the same in front of any token that cannot belong to it. -/
theorem Phrase.Spelled.of_inert {p : Phrase} {before : Option Token} {ts : List Token}
    (h : Spelled ops p before ts) (hp : p.isExpr) (hop : ∀ c, next ≠ some (.op c))
    (hparen : next ≠ some .openParen) (helse : next ≠ some .kwElse) : Spelled ops p next ts := by
  induction h with
  | whole _ _ ih => exact .whole (ih rfl) (.of_ne hop)
  | single _ ih => exact .single (ih rfl)
  | binary hleft hpower hleast _ _ ih => exact .binary hleft hpower hleast (ih rfl)
  | unary _ ih => exact .unary (ih rfl)
  | number => exact .number
  | var _ => exact .var hparen
  | parens h _ => exact .parens h
  | callEmpty => exact .callEmpty
  | call h _ => exact .call h
  | ifThen htest _ _ _ ih => exact .ifThen htest (ih rfl) helse
  | ifElse htest hyes _ _ _ ih => exact .ifElse htest hyes (ih rfl)
  | loop hstart hstop _ _ _ ih => exact .loop hstart hstop (ih rfl)
  | loopStep hstart hstop hstep _ _ _ _ ih => exact .loopStep hstart hstop hstep (ih rfl)
  | declare hvars _ _ ih => exact .declare hvars (ih rfl)
  | lastArg | moreArgs | unset | set | lastBinding | moreBindings => cases hp

/-- What is parsed on its own is parsed before a comma and before a closing parenthesis. -/
theorem spelled_of_gives {tokens : List Token} {e : Expr} (h : (parseExpr ops 0 tokens).Gives e [])
    (hnext : next = some .comma ∨ next = some .closeParen) :
    Spelled ops (.whole 0 e) next tokens := by
  obtain ⟨ts, rfl, hts⟩ := read_of_gives h
  rw [List.append_nil]
  apply hts.of_inert rfl
  all_goals rcases hnext with rfl | rfl <;> simp

theorem spelled_args {args : List (List Token × Expr)} (hargs : args ≠ [])
    (h : ∀ arg ∈ args, (parseExpr ops 0 arg.1).Gives arg.2 []) :
    Spelled ops (.args (args.map Prod.snd)) (some .closeParen)
      ([Token.comma].intercalate (args.map Prod.fst)) := by
  induction args with
  | nil => exact absurd rfl hargs
  | cons arg rest ih =>
    obtain ⟨harg, hrest⟩ := List.forall_mem_cons.1 h
    cases rest with
    | nil => simpa using Spelled.lastArg (spelled_of_gives harg (.inr rfl))
    | cons more rest =>
      simpa using Spelled.moreArgs (spelled_of_gives harg (.inl rfl)) (ih (by simp) hrest)

theorem IsFactor.spelled {tokens : List Token} {e : Expr} (h : IsFactor ops tokens e)
    (hnext : next ≠ some .openParen) : Spelled ops (.operand e) next tokens := by
  induction h with
  | number => exact .number
  | var => exact .var hnext
  | @call name args hargs =>
    by_cases hnil : args = []
    · rw [hnil]
      exact .callEmpty
    · exact .call (spelled_args hnil hargs)
  | parens h => exact .parens (spelled_of_gives h (.inr rfl))
  | unary _ ih => exact .unary ih

end

/-! ### Parsing -/

theorem Sequence.tokens_join {ops : Operators} (s t : Sequence (Factor ops)) (op : Char) :
    (s.join op t).tokens = s.tokens ++ .op op :: t.tokens := by
  simp [tokens, join]

/-- An ordered grouping is spelled by its operands and operators, where no operator on its right
side takes what comes next. -/
theorem Grouping.Ordered.spelled {ops : Operators} {t : Grouping (Factor ops)} (h : t.Ordered ops)
    (hknown : t.reading.Known ops) {least : UInt32} {next : Option Token}
    (hleast : ∀ q ∈ t.leftSpine, ∀ power ∈ ops.power? q, least ≤ power.left)
    (hstops : ∀ p ∈ t.rightSpine, ∀ power ∈ ops.power? p, ops.Stops power.right next)
    (hnext : next ≠ some .openParen) : Spelled ops (.chain least t.expr) next t.reading.tokens := by
  induction t generalizing least next with
  | operand a =>
    rw [expr, reading, Sequence.tokens, List.flatMap_nil, List.append_nil]
    exact .single (a.isFactor.spelled hnext)
  | node left o right ihl ihr =>
    obtain ⟨hleft, hright, hpasses, hretains⟩ := h
    obtain ⟨hl, ho, hr⟩ := Sequence.known_join_iff.1 hknown
    obtain ⟨power, hpower⟩ := Operators.exists_power ho
    rw [leftSpine, List.forall_mem_cons] at hleast
    rw [rightSpine, List.forall_mem_cons] at hstops
    rw [expr, reading, Sequence.tokens_join]
    refine .binary ?_ hpower (hleast.1 power hpower) (.whole ?_ (hstops.1 power hpower))
    · apply ihl hleft hl hleast.2 _ (by simp)
      rintro p hp _ hpower' c _ hc hc'
      cases hc
      exact (hretains p hp).left_lt hpower' hc'
    · apply ihr hright hr _ hstops.2 hnext
      exact fun q hq _ hpower' => (hpasses q hq).right_le hpower hpower'

/-- Of all groupings of a sequence of operands with known operators between them one is ordered, and
the parser finds it if no operator and no call comes next. Operators of one precedence group to the
left, and assignments to the right. -/
theorem Cursor.expr_eq_grouping {c : Cursor} (s : Sequence (Factor c.operators)) {rest : List Token}
    (hs : s.Known c.operators) (htokens : c.tokens = s.tokens ++ rest)
    (hop : ∀ op, rest.head? = some (.op op) → c.operators.find? op = none)
    (hparen : rest.head? ≠ some .openParen) :
    (∃! t : Grouping (Factor c.operators), t.reading = s ∧ t.Ordered c.operators) ∧
      ∀ t : Grouping (Factor c.operators), t.reading = s → t.Ordered c.operators →
        c.expr = (some t.expr, { c with tokens := rest }) ∧ t.Associates c.operators ∧
        ((∃ precedence, ∀ x ∈ s.rest, c.operators.find? x.1 = some precedence ∧ x.1 ≠ '=') →
          t = s.leftward) ∧
        ((∀ x ∈ s.rest, x.1 = '=') → t = s.rightward) := by
  refine ⟨⟨.ofSequence c.operators s, Grouping.ofSequence_spec s hs, ?_⟩, ?_⟩
  · rintro t ⟨rfl, ht⟩
    exact ht.eq_ofSequence
  · rintro t rfl ht
    have hstops (least : UInt32) : c.operators.Stops least rest.head? := by
      intro op power hnext hpower
      simp [Operators.power?, hop op hnext] at hpower
    have hspelled : Spelled c.operators (.whole 0 t.expr) rest.head? t.reading.tokens :=
      .whole (ht.spelled hs (fun _ _ _ _ => UInt32.zero_le) (fun _ _ power _ => hstops power.right)
        hparen) (hstops 0)
    refine ⟨?_, ht.associates hs, ?_, ht.eq_rightward hs⟩
    · rw [expr, advance_eq_some_iff, htokens]
      exact ⟨hspelled.accepted rest rfl, rfl, rfl⟩
    · rintro ⟨precedence, h⟩
      exact ht.eq_leftward h

/-- The usual operators, and one with the precedence of assignments. -/
def sharing : Operators := Operators.standard.install '|' 2

theorem isFactor_call : IsFactor sharing
    [.ident "f", .openParen, .ident "x", .comma, .ident "z", .closeParen]
    (.call "f" [.var "x", .var "z"]) := by
  have hname (name : String) : (parseExpr sharing 0 [.ident name]).Gives (.var name) [] :=
    (Spelled.whole (.single (.var (by simp))) (.of_ne (by simp))).accepted [] rfl
  exact @IsFactor.call sharing "f" [([.ident "x"], .var "x"), ([.ident "z"], .var "z")]
    (by simpa using ⟨hname "x", hname "z"⟩)

theorem isFactor_sum : IsFactor sharing
    [.openParen, .ident "y", .op '+', .number 2, .closeParen]
    (.binary '+' (.var "y") (.number 2)) := by
  have hleft : Spelled sharing (.chain 0 (.var "y")) (some (.op '+')) [.ident "y"] :=
    .single (.var (by simp))
  have hpower : sharing.power? '+' = some ⟨40, 41⟩ := by decide
  have hsum : Spelled sharing (.whole 0 (.binary '+' (.var "y") (.number 2))) none
      [.ident "y", .op '+', .number 2] :=
    .whole (.binary hleft hpower (by decide) (.whole (.single .number) (.of_ne (by simp))))
      (.of_ne (by simp))
  exact .parens (hsum.accepted [] rfl)

/-- The operands and operators of `a | -b = f(x, z) | (y + 2) * z`. -/
def sharingSequence : Sequence (Factor sharing) where
  first := ⟨[.ident "a"], .var "a", .var⟩
  rest := [('|', ⟨[.op '-', .ident "b"], .unary '-' (.var "b"), .unary .var⟩),
    ('=', ⟨_, _, isFactor_call⟩), ('|', ⟨_, _, isFactor_sum⟩),
    ('*', ⟨[.ident "z"], .var "z", .var⟩)]

theorem expr_eq_grouping_sharing :
    sharingSequence.Known sharing ∧
      (⟨sharingSequence.tokens ++ [.semi], sharing, []⟩ : Cursor).expr =
        (some (.binary '|' (.var "a") (.binary '=' (.unary '-' (.var "b"))
          (.binary '|' (.call "f" [.var "x", .var "z"])
            (.binary '*' (.binary '+' (.var "y") (.number 2)) (.var "z"))))),
          ⟨[.semi], sharing, []⟩) := by
  have hknown : sharingSequence.Known sharing := by
    simp only [Sequence.Known, sharingSequence, List.forall_mem_cons]
    decide
  obtain ⟨hreading, hordered⟩ := Grouping.ofSequence_spec sharingSequence hknown
  refine ⟨hknown, ?_⟩
  exact ((Cursor.expr_eq_grouping (c := ⟨_, sharing, []⟩) sharingSequence hknown rfl
    (by simp) (by simp)).2 _ hreading hordered).1

end ScalarLang
