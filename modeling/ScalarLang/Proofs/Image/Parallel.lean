import ScalarLang.Proofs.Image.Correspondence
import ScalarLang.Proofs.Image.Loading

/-! Images that are extended side by side. If functions that behave alike are loaded into images that
correspond, the images still correspond; a function that is loaded and removed again changes
nothing. -/

namespace ScalarLang

open Bytecode (Import)
open IR (Func)

variable {R S : Nat → Nat → Prop}

/-! ### Larger correspondences -/

theorem optionRel_imp {α β : Type} {r s : α → β → Prop} (hrs : ∀ {a b}, r a b → s a b)
    {x : Option α} {y : Option β} (h : Option.Rel r x y) : Option.Rel s x y := by
  cases h with
  | none => exact .none
  | some h => exact .some (hrs h)

theorem Address.Rel.imp (hRS : ∀ {k k'}, R k k' → S k k') {a a' : Address} (h : a.Rel R a') :
    a.Rel S a' := by
  cases h with
  | compiled h => exact .compiled (hRS h)
  | host k => exact .host k

theorem LinkedFn.Alike.imp (hRS : ∀ {k k'}, R k k' → S k k') {fn fn' : LinkedFn}
    (h : fn.Alike R fn') : fn.Alike S fn' := by
  obtain ⟨f, f', bound, bound', hf, hf', hbehaviour, hbound⟩ := h.implement
  exact ⟨h.name, h.arity, f, f', bound, bound', hf, hf', hbehaviour,
    fun name => optionRel_imp (Address.Rel.imp hRS) (hbound name)⟩

namespace Image

variable {image image' : Image} {f f' : Func} {fn fn' : LinkedFn}

/-- The relation with one more pair of functions, those that are loaded next. -/
def Next (image image' : Image) (R : Nat → Nat → Prop) (k k' : Nat) : Prop :=
  R k k' ∨ k = image.code.size ∧ k' = image'.code.size

/-- Functions that correspond have the same code. -/
def SameCode (R : Nat → Nat → Prop) (image image' : Image) : Prop :=
  ∀ (k k' : Nat) (fn fn' : LinkedFn), R k k' → image.compiled? k = some fn →
    image'.compiled? k' = some fn' → fn'.chunk = fn.chunk

theorem SameCode.of_same {image₁ image₂ : Image} (h : SameCode R image image')
    (h₁ : image.Same image₁) (h₂ : image'.Same image₂) : SameCode R image₁ image₂ := by
  intro k k' fn fn' hk hfn hfn'
  rw [h₁.compiled] at hfn
  rw [h₂.compiled] at hfn'
  exact h k k' fn fn' hk hfn hfn'

theorem sameCode_self (image : Image) :
    SameCode (fun k k' => k' = k ∧ (image.compiled? k).isSome) image image := by
  rintro k k' fn fn' ⟨rfl, -⟩ hfn hfn'
  rw [Option.some.inj (hfn.symm.trans hfn')]

/-- An image corresponds to itself. -/
theorem Consistent.corresponds (h : image.Consistent) :
    image.Corresponds (fun k k' => k' = k ∧ (image.compiled? k).isSome) image := by
  have hrel {a : Address} (ha : (image.arity? a).isSome) :
      a.Rel (fun k k' => k' = k ∧ (image.compiled? k).isSome) a := by
    cases a with
    | compiled k => exact .compiled ⟨rfl, by simpa [arity?] using ha⟩
    | host k => exact .host k
  refine ⟨rfl, fun name => ?_, ?_, h.implemented, h.implemented⟩
  · cases hfind : image.find? name with
    | none => exact .none
    | some a =>
      cases a with
      | host k => exact .some (.host k)
      | compiled k =>
        obtain ⟨fn, hfn, -⟩ := h.toTidy.compiled?_of_find? hfind
        exact .some (.compiled ⟨rfl, Option.isSome_of_eq_some hfn⟩)
  · rintro k k' ⟨rfl, hsome⟩
    obtain ⟨fn, hfn⟩ := Option.isSome_iff_exists.1 hsome
    obtain ⟨f, bound, hf⟩ := h.implemented fn ⟨k', hfn⟩
    -- what names are bound to matters for imports only, and these lead to loaded functions
    have himplements : fn.Implements f fun name => (bound name).filter (image.arity? · |>.isSome) :=
      { hf with
        bound := fun {index i} hi => by
          have hbound := hf.bound hi
          cases hb : bound i.name with
          | none => rw [hbound, hb, Option.filter_none]
          | some a =>
            have harity := h.bound ⟨k', hfn⟩ hi (hbound.trans (congrArg some hb))
            rw [hbound, hb, Option.filter_some, harity]
            rfl }
    refine ⟨fn, fn, hfn, hfn, rfl, rfl, f, f, _, _, himplements, himplements, fun _ _ _ => rfl, ?_⟩
    intro name
    cases hb : (bound name).filter (image.arity? · |>.isSome) with
    | none => exact .none
    | some a => exact .some (hrel (Option.filter_eq_some_iff.1 hb).2)

namespace Corresponds

variable (h : image.Corresponds R image')
include h

theorem of_same {image₁ image₂ : Image} (h₁ : image.Same image₁) (h₂ : image'.Same image₂) :
    image₁.Corresponds R image₂ where
  hosts := h₂.hosts.trans (h.hosts.trans h₁.hosts.symm)
  find name := by
    rw [h₁.find, h₂.find]
    exact h.find name
  loaded hk := by
    obtain ⟨fn, fn', hfn, hfn', halike⟩ := h.loaded hk
    exact ⟨fn, fn', (h₁.compiled _).trans hfn, (h₂.compiled _).trans hfn', halike⟩
  implemented fn hfn := h.implemented fn (h₁.loaded.1 hfn)
  implemented' fn hfn := h.implemented' fn (h₂.loaded.1 hfn)

theorem arity? {a a' : Address} (ha : a.Rel R a') : image'.arity? a' = image.arity? a := by
  rw [arity?_eq, arity?_eq]
  rcases optionRel_cases (h.callee ha) with ⟨hc, hc'⟩ | ⟨c, c', hc, hc', hrel⟩
  · rw [hc, hc']
  · rw [hc, hc', Option.map_some, Option.map_some, hrel.arity]

/-- Names are resolved to functions that correspond, with the same number of arguments. -/
theorem resolve (hheader : f'.header = f.header) (name : String) :
    Option.Rel (fun x x' => x.1.Rel (image.Next image' R) x'.1 ∧ x'.2 = x.2)
      (image.resolve? image.code.size [f] name) (image'.resolve? image'.code.size [f'] name) := by
  have hname : f'.name = f.name := congrArg Prod.fst hheader
  have harity : f'.arity = f.arity := congrArg (·.2.length) hheader
  by_cases hn : name = f.name
  · rw [hn, resolve?_self, ← hname, resolve?_self]
    exact .some ⟨.compiled (.inr ⟨rfl, rfl⟩), harity⟩
  · rw [resolve?_of_ne hn, resolve?_of_ne (hname ▸ hn)]
    rcases optionRel_cases (h.find name) with ⟨hf, hf'⟩ | ⟨a, a', hf, hf', ha⟩
    · rw [hf, hf']
      exact .none
    · rw [hf, hf', Option.bind_some, Option.bind_some, h.arity? ha]
      cases image.arity? a with
      | none => exact .none
      | some n => exact .some ⟨ha.imp .inl, rfl⟩

theorem binding (hheader : f'.header = f.header) (name : String) :
    Option.Rel (Address.Rel (image.Next image' R)) (image.binding f name)
      (image'.binding f' name) := by
  unfold Image.binding
  rcases optionRel_cases (h.resolve hheader name) with ⟨hr, hr'⟩ | ⟨x, x', hr, hr', hx⟩
  · rw [hr, hr']
    exact .none
  · rw [hr, hr']
    exact .some hx.1

/-- Functions that behave alike can be loaded into both images. -/
theorem install (hheader : f'.header = f.header)
    (hbehaviour : ∀ args o, (f'.process args).behaviour o = (f.process args).behaviour o)
    (hf : f.Callable) (hf' : f'.Callable) (hl : image.Links [f] f fn)
    (hl' : image'.Links [f'] f' fn') :
    (image.install fn).Corresponds (image.Next image' R) (image'.install fn') := by
  have hname : fn'.name = fn.name := by rw [hl.name, hl'.name]; exact congrArg Prod.fst hheader
  have harity : fn'.arity = fn.arity := by
    rw [hl.arity, hl'.arity]
    exact congrArg (·.2.length) hheader
  constructor
  · exact h.hosts
  · intro name
    rw [find?_install, find?_install, hname]
    split
    · exact .some (.compiled (.inr ⟨rfl, rfl⟩))
    · exact optionRel_imp (Address.Rel.imp .inl) (h.find name)
  · intro k k' hk
    rcases hk with hk | ⟨rfl, rfl⟩
    · obtain ⟨old, old', hold, hold', halike⟩ := h.loaded hk
      exact ⟨old, old', compiled?_install_of_some hold fn, compiled?_install_of_some hold' fn',
        halike.imp .inl⟩
    · refine ⟨fn, fn', by rw [compiled?_install, if_pos rfl], by rw [compiled?_install, if_pos rfl],
        hname, harity, f, f', _, _, hl.implements hf, hl'.implements hf', ?_, h.binding hheader⟩
      exact fun args o _ => hbehaviour args o
  · intro old hold
    rcases loaded_install hold with rfl | hold
    · exact ⟨f, _, hl.implements hf⟩
    · exact h.implemented old hold
  · intro old hold
    rcases loaded_install hold with rfl | hold
    · exact ⟨f', _, hl'.implements hf'⟩
    · exact h.implemented' old hold

theorem sameCode_install (hcode : SameCode R image image') (hchunk : fn'.chunk = fn.chunk) :
    SameCode (image.Next image' R) (image.install fn) (image'.install fn') := by
  intro k k' old old' hk hold hold'
  rcases hk with hk | ⟨rfl, rfl⟩
  · obtain ⟨fn₁, fn₁', hfn₁, hfn₁', -⟩ := h.loaded hk
    rw [compiled?_install_of_some hfn₁] at hold
    rw [compiled?_install_of_some hfn₁'] at hold'
    cases hold
    cases hold'
    exact hcode k k' _ _ hk hfn₁ hfn₁'
  · rw [compiled?_install, if_pos rfl] at hold hold'
    cases hold
    cases hold'
    exact hchunk

theorem bindImport (f : Func) (i : Import) :
    (image'.bindImport image'.code.size [f] i).map (fun _ => ()) =
      (image.bindImport image.code.size [f] i).map fun _ => () := by
  unfold Image.bindImport
  rcases optionRel_cases (h.resolve (rfl : f.header = f.header) i.name) with
    ⟨hr, hr'⟩ | ⟨⟨a, n⟩, ⟨a', n'⟩, hr, hr', -, hn⟩
  · rw [hr, hr']
  · obtain rfl : n' = n := hn
    rw [hr, hr']
    dsimp only
    split <;> rfl

end Corresponds

/-- A list is gone through alike if its members are, whatever the results are. -/
theorem map_mapM_congr {α β β' ε : Type} {g : α → Except ε β} {g' : α → Except ε β'} (as : List α)
    (h : ∀ a, (g' a).map (fun _ => ()) = (g a).map fun _ => ()) :
    (as.mapM g').map (fun _ => ()) = (as.mapM g).map fun _ => () := by
  induction as with
  | nil => rfl
  | cons a as ih =>
    have ha := h a
    simp only [List.mapM_cons]
    cases hg : g a <;> cases hg' : g' a <;> rw [hg, hg'] at ha <;> cases ha
    · rfl
    · cases hs : as.mapM g <;> cases hs' : as.mapM g' <;> rw [hs, hs'] at ih <;> cases ih <;> rfl

/-- One function gets the same code in images that correspond, or fails alike to be linked. -/
theorem Corresponds.prepare (h : image.Corresponds R image') (f : Func) :
    (image'.prepare f).map LinkedFn.chunk = (image.prepare f).map LinkedFn.chunk := by
  unfold Image.prepare linkFunc
  cases lowerFunc f with
  | error e => rfl
  | ok chunk =>
    have himports := map_mapM_congr chunk.imports.toList (h.bindImport f)
    simp only [bind, Except.bind]
    cases hs : chunk.imports.toList.mapM (image.bindImport image.code.size [f]) <;>
      cases hs' : chunk.imports.toList.mapM (image'.bindImport image'.code.size [f]) <;>
      rw [hs, hs'] at himports <;> cases himports <;> rfl

end Image

end ScalarLang
