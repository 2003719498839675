import ScalarLang.Proofs.Image.Inventory

/-! Which function a call runs. A function calls those of its own module; else those that its names
stood for when its module was linked, as long as they are loaded; and a name that stood for nothing
then is looked up when it is called. Places in the code are never used again, so a call runs no
compiled function but the one that it was bound to. A function of the host, though, gives its place
to the next one of its name. -/

namespace ScalarLang

open Bytecode (Import fetch)
open IR (Func Module)

namespace Image

variable {image image' image₀ : Image} {m : Module} {l : Linked} {fn : LinkedFn} {r : Request}
  {answer : Answer} {requests : List Request} {index : Nat} {host : HostFn} {i : Import}

/-! ### Places -/

/-- A request leaves what is loaded where it is, or takes it out. -/
theorem Served.compiled? (h : image.Served r answer image')
    (hfn : image'.compiled? index = some fn) (hlt : index < image.code.size) :
    image.compiled? index = some fn := by
  cases h with
  | added host =>
    rw [Image.compiled?, (image.addHost_frame host).1] at hfn
    exact hfn
  | linked hl =>
    rw [(link_eq_ok hl).2.compiled?] at hfn
    exact hfn.resolve_right fun hmem => Nat.not_le.2 hlt (List.mem_zipIdx hmem).1
  | refused => exact hfn
  | removed hremove =>
    obtain ⟨defined, -, rfl⟩ := remove?_eq_some.1 hremove
    rw [compiled?_unloadAll] at hfn
    split at hfn
    · cases hfn
    · exact hfn
  | unknown => exact hfn

theorem Served.size_le (h : image.Served r answer image') : image.code.size ≤ image'.code.size := by
  cases h with
  | added host => exact Nat.le_of_eq (congrArg Array.size (image.addHost_frame host).1).symm
  | linked hl => simp [(link_eq_ok hl).2.code]
  | refused => exact Nat.le_refl _
  | removed hremove => exact Nat.le_of_eq (remove_frame hremove).2.2.symm
  | unknown => exact Nat.le_refl _

/-- A place that was given out holds the same function ever after, or none. -/
theorem compiled?_after (h : (image.after requests).compiled? index = some fn)
    (hlt : index < image.code.size) : image.compiled? index = some fn := by
  induction requests generalizing image with
  | nil => exact h
  | cons r rest ih =>
    have hserved := image.served r
    exact hserved.compiled? (ih h (hlt.trans_le hserved.size_le)) hlt

/-! ### Functions of the host -/

/-- The function of the host that a name stands for after requests, if it stood for `host` before:
the one that was added last under the name. -/
def latest (name : String) (host : HostFn) : List Request → HostFn
  | [] => host
  | .addHost new :: rest => latest name (if name = new.name then new else host) rest
  | .link _ :: rest => latest name host rest
  | .remove _ :: rest => latest name host rest

theorem hostNamed?_of_hosts_eq (h : image'.hosts = image.hosts) (name : String) :
    image'.hostNamed? name = image.hostNamed? name := by
  rw [hostNamed?, hostNamed?, h]

/-- A name of the host keeps its number, and stands for what was added last under it. -/
theorem hostNamed?_after {name : String} (h : image.hostNamed? name = some (index, host))
    (requests : List Request) :
    (image.after requests).hostNamed? name = some (index, latest name host requests) := by
  induction requests generalizing image host with
  | nil => exact h
  | cons r rest ih =>
    rw [after_cons]
    have hserved := image.served r
    generalize (image.serve r).1 = answer at hserved
    generalize (image.serve r).2 = image' at hserved
    cases hserved with
    | added new =>
      refine ih ?_
      rw [hostNamed?_addHost]
      split
      · next hname => rw [← hname, h, Option.map_some, Option.getD_some]
      · exact h
    | linked hl => exact ih (hostNamed?_of_hosts_eq (link_eq_ok hl).2.hosts name ▸ h)
    | refused => exact ih h
    | removed hremove => exact ih (hostNamed?_of_hosts_eq (remove_frame hremove).1 name ▸ h)
    | unknown => exact ih h

theorem name_of_hostNamed? {name : String} (h : image.hostNamed? name = some (index, host)) :
    host.name = name := by
  obtain ⟨hindex, hhost⟩ := hostNamed?_eq_some.1 h
  obtain ⟨hlt, hname, -⟩ := Array.findIdx?_eq_some_iff_getElem.1 hindex
  cases (Array.getElem?_eq_getElem hlt).symm.trans hhost
  exact of_decide_eq_true hname

theorem exists_hostNamed? {name : String} (h : image.find? name = some (.host index)) :
    ∃ host, image.hostNamed? name = some (index, host) := by
  obtain ⟨host, hhost, -⟩ := host?_of_find? h
  refine ⟨host, hostNamed?_eq_some.2 ⟨?_, hhost⟩⟩
  rw [find?_eq] at h
  split at h
  · cases h
  · obtain ⟨k, hk, he⟩ := Option.map_eq_some_iff.1 h
    cases he
    exact hk

/-! ### Where modules come from -/

theorem log_concat (image : Image) (requests : List Request) (r : Request) :
    image.log (requests ++ [r]) = image.log requests ++ [(r, ((image.after requests).serve r).1)] := by
  induction requests generalizing image with
  | nil => rfl
  | cons r' rest ih => exact congrArg (_ :: ·) (ih (image.serve r').2)

/-- A module that is loaded was linked once. -/
theorem exists_link {h : Holding}
    (hh : h ∈ (Inventory.replay {} (log {} requests)).loaded) :
    ∃ before m since l, requests = before ++ .link m :: since ∧ (after {} before).link m = .ok l ∧
      h = ⟨l.key, (after {} before).code.size, l.functions⟩ := by
  induction requests using List.reverseRecOn with
  | nil => simp [log, Inventory.replay] at hh
  | append_singleton rest r ih =>
    have hold (hh : h ∈ (Inventory.replay {} (log {} rest)).loaded) : ∃ before m since l,
        rest ++ [r] = before ++ .link m :: since ∧ (after {} before).link m = .ok l ∧
          h = ⟨l.key, (after {} before).code.size, l.functions⟩ := by
      obtain ⟨before, m, since, l, rfl, hl, hh⟩ := ih hh
      exact ⟨before, m, since ++ [r], l, by simp, hl, hh⟩
    rw [log_concat, Inventory.replay, List.foldl_append] at hh
    change h ∈ ((Inventory.replay {} (log {} rest)).note (r, _)).loaded at hh
    have hserved := (after {} rest).served r
    generalize ((after {} rest).serve r).1 = answer at hserved hh
    generalize ((after {} rest).serve r).2 = image' at hserved
    cases hserved with
    | added => exact hold hh
    | refused => exact hold hh
    | removed => exact hold (Inventory.mem_remove.1 hh).1
    | unknown => exact hold (Inventory.mem_remove.1 hh).1
    | @linked m l hl =>
      rcases List.mem_append.1 hh with hh | hh
      · exact hold hh
      · refine ⟨rest, m, [], l, rfl, hl, ?_⟩
        rw [List.mem_singleton.1 hh, (represents_after rest).places]

/-- Names stand for functions that are loaded. -/
theorem Represents.tidy {inventory : Inventory} (hr : image.Represents inventory) :
    image.Tidy where
  entry {name key index} hmem := by
    rw [hr.entries] at hmem
    obtain ⟨h, hh, hmem⟩ := List.mem_flatMap.1 hmem
    obtain ⟨⟨fn, k⟩, hfn, he⟩ := List.mem_map.1 hmem
    cases he
    obtain ⟨hfn, hname⟩ := List.mem_filter.1 hfn
    exact ⟨hr.key_lt hh, fn, hr.code.2 ⟨h, hh, hfn⟩, of_decide_eq_true hname⟩
  fresh {key} hkey := by
    by_contra hsome
    obtain ⟨defined, hdefined⟩ := Option.ne_none_iff_exists'.1 hsome
    obtain ⟨h, hh, rfl, -⟩ := hr.find?_modules.1 hdefined
    exact Nat.not_lt.2 hkey (hr.key_lt hh)

/-! ### Calls -/

/-- What a call of an import runs, if a function of module `m` makes it. The module was linked into
`image₀`, and the requests `since` came afterwards. -/
inductive Dispatches (image₀ : Image) (m : Module) (l : Linked) (since : List Request)
    (i : Import) : Except RuntimeError Callee → Prop where
  /-- The module defines the name itself. -/
  | own {k : Nat} {f : Func} {fn : LinkedFn} (hf : m.definitions[k]? = some f)
      (hname : f.name = i.name) (hfn : l.functions[k]? = some fn) (harity : fn.arity = i.arity) :
      Dispatches image₀ m l since i (.ok (.compiled (image₀.code.size + k) fn))
  /-- The name stood for a function that is still loaded. -/
  | bound {k : Nat} {fn : LinkedFn} (hforeign : ∀ f ∈ m.definitions, f.name ≠ i.name)
      (hfind : image₀.find? i.name = some (.compiled k)) (hthen : image₀.compiled? k = some fn)
      (hnow : (l.image.after since).compiled? k = some fn) (harity : fn.arity = i.arity) :
      Dispatches image₀ m l since i (.ok (.compiled k fn))
  /-- The name stood for a function that was removed. -/
  | removed {k : Nat} {fn : LinkedFn} (hforeign : ∀ f ∈ m.definitions, f.name ≠ i.name)
      (hfind : image₀.find? i.name = some (.compiled k)) (hthen : image₀.compiled? k = some fn)
      (hnow : (l.image.after since).compiled? k = none) :
      Dispatches image₀ m l since i (.error (.unloaded i.name))
  /-- The name stood for a function of the host, and the last one that was added under it is run. -/
  | host {k : Nat} {old : HostFn} (hforeign : ∀ f ∈ m.definitions, f.name ≠ i.name)
      (hfind : image₀.find? i.name = some (.host k)) (hthen : image₀.host? k = some old)
      (hnow : (l.image.after since).host? k = some (latest i.name old since))
      (harity : (latest i.name old since).arity = i.arity) :
      Dispatches image₀ m l since i (.ok (.host (latest i.name old since)))
  /-- The name stood for a function of the host, and one with other arguments took its place. -/
  | replaced {k : Nat} {old : HostFn} (hforeign : ∀ f ∈ m.definitions, f.name ≠ i.name)
      (hfind : image₀.find? i.name = some (.host k)) (hthen : image₀.host? k = some old)
      (hold : old.arity = i.arity)
      (hnow : (l.image.after since).host? k = some (latest i.name old since))
      (harity : (latest i.name old since).arity ≠ i.arity) :
      Dispatches image₀ m l since i
        (.error (.arityMismatch i.name (latest i.name old since).arity i.arity))
  /-- The name stood for nothing, and now it does. -/
  | late {a : Address} {callee : Callee} (hforeign : ∀ f ∈ m.definitions, f.name ≠ i.name)
      (hthen : image₀.find? i.name = none) (hfind : (l.image.after since).find? i.name = some a)
      (hnow : (l.image.after since).callee? a = some callee) (harity : callee.arity = i.arity) :
      Dispatches image₀ m l since i (.ok callee)
  | mismatched {a : Address} {n : Nat} (hforeign : ∀ f ∈ m.definitions, f.name ≠ i.name)
      (hthen : image₀.find? i.name = none) (hfind : (l.image.after since).find? i.name = some a)
      (hnow : (l.image.after since).arity? a = some n) (harity : n ≠ i.arity) :
      Dispatches image₀ m l since i (.error (.link (.arityMismatch i.name n i.arity)))
  | missing (hforeign : ∀ f ∈ m.definitions, f.name ≠ i.name) (hthen : image₀.find? i.name = none)
      (hfind : (l.image.after since).find? i.name = none) :
      Dispatches image₀ m l since i (.error (.link (.unresolved i.name)))

/-- A call runs one function, if no two definitions of the module share a name. -/
theorem Dispatches.unique {since : List Request} {r r' : Except RuntimeError Callee}
    (hnodup : (m.definitions.map (·.name)).Nodup) (h : Dispatches image₀ m l since i r)
    (h' : Dispatches image₀ m l since i r') : r' = r := by
  have hforeign {k : Nat} {f : Func} (hf : m.definitions[k]? = some f) (hname : f.name = i.name)
      (hforeign : ∀ f ∈ m.definitions, f.name ≠ i.name) : False :=
    hforeign f (List.mem_of_getElem? hf) hname
  cases h with
  | @own k f fn hf hname hfn =>
    cases h' with
    | @own k' f' fn' hf' hname' hfn' =>
      have hnames : (m.definitions.map (·.name))[k]? = (m.definitions.map (·.name))[k']? := by
        rw [List.getElem?_map, List.getElem?_map, hf, hf', Option.map_some, Option.map_some, hname,
          hname']
      have hlt : k < (m.definitions.map (·.name)).length := by
        rw [List.length_map]
        exact (List.getElem?_eq_some_iff.1 hf).1
      cases (List.getElem?_inj hlt hnodup).1 hnames
      cases hfn.symm.trans hfn'
      rfl
    | _ => exact (hforeign hf hname ‹_›).elim
  | _ =>
    cases h' with
    | own hf' hname' => exact (hforeign hf' hname' ‹_›).elim
    | _ => grind [arity?_eq]

theorem reach_compiled {k : Nat} (hk : image.compiled? k = some fn) (harity : fn.arity = i.arity) :
    image.reach i (some (.compiled k)) = .ok (.compiled k fn) := by
  simp [reach, Machine.callTarget, callee?, hk, Callee.arity, harity]

/-- A name that stood for a function of the host when it was bound. -/
theorem dispatches_host {k : Nat} {old : HostFn} (hl : image₀.link m = .ok l)
    (hforeign : ∀ f ∈ m.definitions, f.name ≠ i.name)
    (hfind : image₀.find? i.name = some (.host k))
    (hthen : image₀.hostNamed? i.name = some (k, old)) (hold : old.arity = i.arity)
    (since : List Request) :
    Dispatches image₀ m l since i ((l.image.after since).reach i (some (.host k))) := by
  have hlinked : l.image.hostNamed? i.name = some (k, old) :=
    hostNamed?_of_hosts_eq (link_eq_ok hl).2.hosts i.name ▸ hthen
  have hafter := hostNamed?_after hlinked since
  have hname := name_of_hostNamed? hafter
  have hnow := (hostNamed?_eq_some.1 hafter).2
  have hthen := (hostNamed?_eq_some.1 hthen).2
  by_cases harity : (latest i.name old since).arity = i.arity
  · have hreach : (l.image.after since).reach i (some (.host k)) =
        .ok (.host (latest i.name old since)) := by
      simp [reach, Machine.callTarget, callee?, hnow, Callee.arity, harity]
    rw [hreach]
    exact .host hforeign hfind hthen hnow harity
  · have hreach : (l.image.after since).reach i (some (.host k)) =
        .error (.arityMismatch i.name (latest i.name old since).arity i.arity) := by
      simp [reach, Machine.callTarget, callee?, hnow, Callee.arity, Callee.name, harity, hname]
    rw [hreach]
    exact .replaced hforeign hfind hthen hold hnow harity

/-- A name that stood for nothing when its caller was linked. -/
theorem dispatches_open (hforeign : ∀ f ∈ m.definitions, f.name ≠ i.name)
    (hthen : image₀.find? i.name = none) {since : List Request}
    (htidy : (l.image.after since).Tidy) :
    Dispatches image₀ m l since i ((l.image.after since).reach i none) := by
  cases hfind : (l.image.after since).find? i.name with
  | none =>
    simp only [reach, Machine.callTarget, hfind]
    exact .missing hforeign hthen hfind
  | some a =>
    obtain ⟨n, hn⟩ := htidy.arity?_of_find? hfind
    by_cases harity : n = i.arity
    · subst harity
      obtain ⟨callee, hcallee, hc⟩ := Option.map_eq_some_iff.1 (arity?_eq _ a ▸ hn)
      simp only [reach, Machine.callTarget, hfind, hn, hcallee, hc, if_true]
      exact .late hforeign hthen hfind hcallee hc
    · simp only [reach, Machine.callTarget, hfind, hn, if_neg harity]
      exact .mismatched hforeign hthen hfind hn harity

/-- A definition of a module becomes the function at the same place among its functions. -/
theorem exists_linked {definition : Func} {k : Nat} (hl : image₀.link m = .ok l)
    (hk : m.definitions[k]? = some definition) :
    ∃ fn, l.functions[k]? = some fn ∧ image₀.Links m.definitions definition fn := by
  obtain ⟨hlt, rfl⟩ := List.getElem?_eq_some_iff.1 hk
  obtain ⟨hlength, hlinks⟩ := List.forall₂_iff_get.1 (link_eq_ok hl).1
  exact ⟨l.functions[k], List.getElem?_eq_getElem (hlength ▸ hlt), hlinks k hlt (hlength ▸ hlt)⟩

/-- Every import of a function is bound when the function is linked, and what a call of it runs
follows from that, as long as the functions of its module are where they were put. -/
theorem exists_dispatches {since : List Request} {caller : LinkedFn} (hl : image₀.link m = .ok l)
    (hcaller : caller ∈ l.functions) (htidy₀ : image₀.Tidy) (htidy : (l.image.after since).Tidy)
    (hown : ∀ k fn, l.functions[k]? = some fn →
      (l.image.after since).compiled? (image₀.code.size + k) = some fn)
    (hi : caller.chunk.imports[index]? = some i) :
    ∃ bound, caller.imports[index]? = some bound ∧
      Dispatches image₀ m l since i ((l.image.after since).reach i bound) := by
  obtain ⟨f, -, hlinks⟩ := exists_of_forall₂ (link_eq_ok hl).1 hcaller
  obtain ⟨bound, hbound, hbind⟩ := hlinks.bindImport hi
  refine ⟨bound, hbound, ?_⟩
  have hresolve := resolve?_of_bindImport hbind
  by_cases hmem : ∃ f ∈ m.definitions, f.name = i.name
  · obtain ⟨k, g, hg, hname, hself⟩ := image₀.resolve?_of_mem image₀.code.size hmem
    obtain ⟨a, rfl, he⟩ := Option.map_eq_some_iff.1 (hresolve.symm.trans hself)
    obtain ⟨rfl, harity⟩ := Prod.mk.inj he
    obtain ⟨fn, hfn, hlinked⟩ := exists_linked hl hg
    have hn : fn.arity = i.arity := hlinked.arity.trans harity.symm
    rw [reach_compiled (hown k fn hfn) hn]
    exact .own hg hname hfn hn
  · push Not at hmem
    rw [resolve?_of_forall_ne hmem] at hresolve
    cases hfind : image₀.find? i.name with
    | none =>
      rw [hfind, Option.bind_none, eq_comm, Option.map_eq_none_iff] at hresolve
      rw [hresolve]
      exact dispatches_open hmem hfind htidy
    | some a =>
      obtain ⟨n, hn⟩ := htidy₀.arity?_of_find? hfind
      rw [hfind, Option.bind_some, hn, Option.map_some] at hresolve
      obtain ⟨a', rfl, he⟩ := Option.map_eq_some_iff.1 hresolve.symm
      obtain ⟨rfl, rfl⟩ := Prod.mk.inj he
      cases a' with
      | host k =>
        obtain ⟨old, hold⟩ := exists_hostNamed? hfind
        rw [arity?, (hostNamed?_eq_some.1 hold).2, Option.map_some, Option.some.injEq] at hn
        exact dispatches_host hl hmem hfind hold hn since
      | compiled k =>
        obtain ⟨fn, hfn, -⟩ := htidy₀.compiled?_of_find? hfind
        rw [arity?, hfn, Option.map_some, Option.some.injEq] at hn
        cases hnow : (l.image.after since).compiled? k with
        | none =>
          simp only [reach, Machine.callTarget, callee?, hnow, Option.map_none]
          exact .removed hmem hfind hfn hnow
        | some fn' =>
          -- the place was given out before the module was linked
          have hafter : image₀.after (.link m :: since) = l.image.after since := by
            rw [after_cons, serve_of_ok hl]
          have hthen := compiled?_after (hafter ▸ hnow) (lt_of_compiled? hfn)
          cases hfn.symm.trans hthen
          rw [reach_compiled hnow hn]
          exact .bound hmem hfind hfn hnow hn

end Image

/-- The function that runs after a step, unless that was the last one. -/
def Step.running? : Step → Option LinkedFn
  | .next m => some m.frame.fn
  | .stop _ => none

namespace Machine

variable {image : Image} {maxDepth : Nat} {m : Machine}

/-- What a step comes to that makes a call, once it is known what the call runs. -/
inductive Calls (m : Machine) (maxDepth : Nat) (args : List Float) (dst : UInt16) :
    Except RuntimeError Callee → Step → Prop where
  /-- The call runs nothing. -/
  | refused {e : RuntimeError} : Calls m maxDepth args dst (.error e) (.stop ⟨.error e, m.effects⟩)
  /-- The host answers, and the caller goes on with the value. -/
  | answered {h : HostFn} (hdst : m.frame.base + dst.toNat < m.registers.size) :
      Calls m maxDepth args dst (.ok (.host h)) (.next
        { frame := { m.frame with ip := m.frame.ip + 7 }
          callers := m.callers
          registers := m.registers.setIfInBounds (m.frame.base + dst.toNat) (h.call args).1
          effects := m.effects ++ (h.call args).2.toArray })
  /-- The host answers, but there is no register for the value. -/
  | unplaced {h : HostFn} (hdst : m.registers.size ≤ m.frame.base + dst.toNat) :
      Calls m maxDepth args dst (.ok (.host h)) (.stop
        ⟨.error (.invalidInstruction m.frame.fn.name (m.frame.ip + 7)),
          m.effects ++ (h.call args).2.toArray⟩)
  /-- The function begins in a frame of its own, with the arguments in its first registers and zeros
  in the others, and the caller waits. -/
  | entered {index : Nat} {fn : LinkedFn} (hdepth : m.callers.size + 2 ≤ maxDepth) :
      Calls m maxDepth args dst (.ok (.compiled index fn)) (.next
        { frame := ⟨fn, 0, m.frame.base + m.frame.fn.chunk.registers, dst⟩
          callers := m.callers.push { m.frame with ip := m.frame.ip + 7 }
          registers := (m.registers.toList.take (m.frame.base + m.frame.fn.chunk.registers) ++
            (args ++ List.replicate (fn.chunk.registers - args.length) 0.0)).toArray
          effects := m.effects })
  | tooDeep {index : Nat} {fn : LinkedFn} (hdepth : maxDepth < m.callers.size + 2) :
      Calls m maxDepth args dst (.ok (.compiled index fn)) (.stop
        ⟨.error (.stackOverflow maxDepth), m.effects⟩)

theorem calls_invoke (m : Machine) (maxDepth : Nat) (args : List Float) (dst : UInt16)
    (callee : Callee) :
    m.Calls maxDepth args dst (.ok callee)
      (m.invoke maxDepth callee args dst (m.frame.ip + 7)) := by
  cases callee with
  | host h =>
    simp only [invoke, callHost, assign]
    split
    · next hdst => exact .answered hdst
    · next hdst => exact .unplaced (Nat.not_lt.1 hdst)
  | compiled index fn =>
    simp only [invoke, enter]
    split
    · next hdepth => exact .tooDeep hdepth
    · next hdepth =>
      have hwindow := congrArg List.toArray (toList_pushWindow m.registers
        (m.frame.base + m.frame.fn.chunk.registers) fn.chunk.registers args)
      rw [Array.toArray_toList] at hwindow
      rw [hwindow]
      exact .entered (Nat.not_lt.1 hdepth)

theorem calls_step {dst index first : UInt16} {i : Import} {bound : Option Address}
    (hi : fetch m.frame.fn.chunk.code m.frame.ip = .instr (.call dst index first))
    (himport : m.frame.fn.chunk.imports[index.toNat]? = some i)
    (hbound : m.frame.fn.imports[index.toNat]? = some bound)
    (hsize : m.frame.base + first.toNat + i.arity ≤ m.registers.size) :
    m.Calls maxDepth (m.callArgs first i.arity) dst (image.reach i bound)
      (m.step image maxDepth) := by
  rw [step_call hi himport hbound hsize]
  cases image.reach i bound with
  | error e => exact .refused
  | ok callee => exact m.calls_invoke maxDepth _ dst callee

/-- Where another function runs after a call, the call reached that function. -/
theorem Calls.of_running {args : List Float} {dst : UInt16} {r : Except RuntimeError Callee}
    {step : Step} {fn : LinkedFn} (h : m.Calls maxDepth args dst r step)
    (hrunning : step.running? = some fn) (hfn : fn ≠ m.frame.fn) :
    ∃ index, r = .ok (.compiled index fn) := by
  cases h with
  | refused | unplaced | tooDeep => cases hrunning
  | answered => exact absurd (Option.some.inj hrunning).symm hfn
  | @entered index =>
    cases hrunning
    exact ⟨index, rfl⟩

end Machine

namespace Image

/-- Every loaded function was linked with a module, lies where the module was put, and calls what
its names stood for then: no place is used for two functions, and a call of a function that was
removed fails. Of the functions of the host the one counts that was added last, and only names that
stood for nothing are looked up when they are called. -/
theorem call_runs_binding (requests : List Request) :
    let image : Image := after {} requests
    (∀ later index fn, (image.after later).compiled? index = some fn →
      image.compiled? index = some fn ∨ image.code.size ≤ index) ∧
    ∀ index caller, image.compiled? index = some caller →
      ∃ before m since l, requests = before ++ .link m :: since ∧
        (after {} before).link m = .ok l ∧
        (∃ k, l.functions[k]? = some caller ∧ index = (after {} before).code.size + k) ∧
        (∀ k f, m.definitions[k]? = some f →
          ∃ fn, l.functions[k]? = some fn ∧ (after {} before).Links m.definitions f fn ∧
            l.image.compiled? ((after {} before).code.size + k) = some fn ∧
            image.compiled? ((after {} before).code.size + k) = some fn) ∧
        ∀ (machine : Machine) (maxDepth : Nat) (dst c first : UInt16) (i : Import),
          machine.frame.fn = caller →
          fetch caller.chunk.code machine.frame.ip = .instr (.call dst c first) →
          caller.chunk.imports[c.toNat]? = some i →
          ∃ r, Dispatches (after {} before) m l since i r ∧
            ((m.definitions.map (·.name)).Nodup →
              ∀ r', Dispatches (after {} before) m l since i r' → r' = r) ∧
            (machine.Calls maxDepth (machine.callArgs first i.arity) dst r
              (machine.step image maxDepth) ∨
            machine.registers.size < machine.frame.base + first.toNat + i.arity ∧
              ∃ e, machine.step image maxDepth = .stop ⟨.error e, machine.effects⟩) := by
  intro image
  have hr := represents_after requests
  refine ⟨fun later index fn hfn => ?_, fun index caller hcaller => ?_⟩
  · by_cases hlt : index < image.code.size
    · exact .inl (compiled?_after hfn hlt)
    · exact .inr (Nat.not_lt.1 hlt)
  · obtain ⟨h, hh, hplaced⟩ := hr.code.1 hcaller
    obtain ⟨before, m, since, l, hrequests, hl, rfl⟩ := exists_link hh
    have himage : image = l.image.after since := by
      change after {} requests = _
      rw [hrequests, after_append, after_cons, serve_of_ok hl]
    have hnow (k : Nat) (fn : LinkedFn) (hfn : l.functions[k]? = some fn) :
        image.compiled? ((after {} before).code.size + k) = some fn :=
      hr.code.2 ⟨_, hh, List.mk_add_mem_zipIdx_iff_getElem?.2 hfn⟩
    have hthen (k : Nat) (fn : LinkedFn) (hfn : l.functions[k]? = some fn) :
        l.image.compiled? ((after {} before).code.size + k) = some fn :=
      (link_eq_ok hl).2.compiled?.2 (.inr (List.mk_add_mem_zipIdx_iff_getElem?.2 hfn))
    refine ⟨before, m, since, l, hrequests, hl, ?_, fun k f hf => ?_, ?_⟩
    · obtain ⟨hle, hk⟩ := List.mk_mem_zipIdx_iff_le_and_getElem?_sub.1 hplaced
      exact ⟨_, hk, (Nat.add_sub_of_le hle).symm⟩
    · obtain ⟨fn, hfn, hlinks⟩ := exists_linked hl hf
      exact ⟨fn, hfn, hlinks, hthen k fn hfn, hnow k fn hfn⟩
    · rintro machine maxDepth dst c first i rfl hfetch hi
      rw [himage] at hnow ⊢
      obtain ⟨bound, hbound, hdispatches⟩ := exists_dispatches hl
        (List.fst_mem_of_mem_zipIdx hplaced) (represents_after before).tidy (himage ▸ hr.tidy)
        hnow hi
      refine ⟨_, hdispatches, fun hnodup _ hr' => hdispatches.unique hnodup hr', ?_⟩
      by_cases hsize : machine.registers.size < machine.frame.base + first.toNat + i.arity
      · exact .inr ⟨hsize, Machine.step_call_of_lt hfetch hi hsize⟩
      · exact .inl (Machine.calls_step hfetch hi hbound (Nat.not_lt.1 hsize))

/-- A function of the host that adds its arguments gives its place to one that counts them. -/
def recounting : List Request :=
  [.addHost (.ofFunction "g" 1 (·.foldl (· + ·) 0.0)), .link ⟨"unit", [asking "f" "g" [.const 2.0]]⟩,
    .addHost (.ofFunction "g" 1 fun args => args.length.toFloat)]

/-- A call that was bound to a function of the host runs the one that took its place. -/
theorem call_runs_replacement :
    (after {} (recounting.take 1)).find? "g" = some (.host 0) ∧
    ((after {} (recounting.take 2)).call 10 10 (.compiled 0) []).map (·.result) = some (.ok 2.0) ∧
    ((after {} recounting).call 10 10 (.compiled 0) []).map (·.result) = some (.ok 1.0) := by
  decide +kernel

/-- A function is called by another one, defined anew, and its first definition is removed. -/
def redefining : List Request :=
  [.link ⟨"first", [answering "g" 1.0]⟩, .link ⟨"second", [asking "f" "g" []]⟩,
    .link ⟨"third", [answering "g" 2.0]⟩, .remove 0]

theorem call_runs_binding_redefining :
    (∃ caller before m since l index fn, (after {} (redefining.take 3)).compiled? 1 = some caller ∧
      redefining.take 3 = before ++ .link m :: since ∧ (after {} before).link m = .ok l ∧
      Dispatches (after {} before) m l since ⟨"g", 0⟩ (.ok (.compiled index fn)) ∧
      ((Machine.start caller []).step (after {} (redefining.take 3)) 10).running? = some fn ∧
      fn.name = "g" ∧ fn.chunk.constants = #[1.0]) ∧
    (after {} (redefining.take 3)).find? "g" = some (.compiled 2) ∧
    ((after {} (redefining.take 3)).call 10 10 (.compiled 1) []).map (·.result) = some (.ok 1.0) ∧
    (∃ caller before m since l, (after {} redefining).compiled? 1 = some caller ∧
      redefining = before ++ .link m :: since ∧ (after {} before).link m = .ok l ∧
      Dispatches (after {} before) m l since ⟨"g", 0⟩ (.error (.unloaded "g"))) ∧
    ((after {} redefining).call 10 10 (.compiled 1) []).map (·.result) =
      some (.error (.unloaded "g")) := by
  have hcode : ((after {} redefining).compiled? 1).map (fun f => fetch f.chunk.code 0) =
    some (.instr (.call 0 0 1)) := by rfl
  have hdata : ((after {} redefining).compiled? 1).map
      (fun f => (f.name, f.chunk.imports[0]?, (Machine.start f []).registers.size)) =
    some ("f", some ⟨"g", 0⟩, 1) := by decide +kernel
  have hrunning : ((after {} redefining).compiled? 1).map
      (fun f => ((Machine.start f []).step (after {} (redefining.take 3)) 10).running?.map
        fun fn => (fn.name, fn.chunk.constants)) = some (some ("g", #[1.0])) := by decide +kernel
  have hstop : ((after {} redefining).compiled? 1).map
      (fun f => ((Machine.start f []).run (after {} redefining) 10 1).map (·.result)) =
    some (some (.error (.unloaded "g"))) := by decide +kernel
  obtain ⟨caller, hcaller, hfetch⟩ := Option.map_eq_some_iff.1 hcode
  have hbefore : (after {} (redefining.take 3)).compiled? 1 = some caller := hcaller
  simp only [hcaller, Option.map_some, Option.some.injEq, Prod.mk.injEq] at hdata hrunning hstop
  obtain ⟨hname, himport, hsize⟩ := hdata
  have hplace : ¬(Machine.start caller []).registers.size < 0 + (1 : UInt16).toNat + 0 := by
    rw [hsize]
    decide
  refine ⟨?_, by decide +kernel, by decide +kernel, ?_, by decide +kernel⟩
  · obtain ⟨before, m, since, l, hrequests, hl, -, -, hcalls⟩ :=
      (call_runs_binding (redefining.take 3)).2 1 caller hbefore
    obtain ⟨r, hr, -, hstep⟩ :=
      hcalls (Machine.start caller []) 10 0 0 1 ⟨"g", 0⟩ rfl hfetch himport
    obtain ⟨fn, hfn, he⟩ := Option.map_eq_some_iff.1 hrunning
    obtain ⟨hg, hconstants⟩ := Prod.mk.inj he
    have hne : fn ≠ caller := by
      rintro rfl
      exact absurd (hname.symm.trans hg) (by decide)
    obtain ⟨index, rfl⟩ := (hstep.resolve_right fun h => hplace h.1).of_running hfn hne
    exact ⟨caller, before, m, since, l, index, fn, hbefore, hrequests, hl, hr, hfn, hg, hconstants⟩
  · obtain ⟨before, m, since, l, hrequests, hl, -, -, hcalls⟩ :=
      (call_runs_binding redefining).2 1 caller hcaller
    obtain ⟨r, hr, -, hstep⟩ :=
      hcalls (Machine.start caller []) 10 0 0 1 ⟨"g", 0⟩ rfl hfetch himport
    have hcall := hstep.resolve_right fun h => hplace h.1
    rw [Machine.run] at hstop
    generalize (Machine.start caller []).step (after {} redefining) 10 = step at hcall hstop
    cases hcall with
    | refused =>
      cases hstop
      exact ⟨caller, before, m, since, l, hcaller, hrequests, hl, hr⟩
    | answered | unplaced | entered | tooDeep => cases hstop

end Image

end ScalarLang
