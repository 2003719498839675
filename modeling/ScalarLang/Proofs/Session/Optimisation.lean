import ScalarLang.Proofs.Image.Inventory
import ScalarLang.Proofs.Session.Invariant
import ScalarLang.Proofs.Session.Parallel

/-! Sessions with and without optimisation. As long as everything can be linked, they show the same:
each item has the same result, or none in both, and calls the same functions of the host, so it has
the same effects. -/

namespace ScalarLang

/-- What comes of an item besides the session after it. -/
def Evaluated.shown (e : Evaluated) : Except SessionError (Option Float) × List Effect :=
  (e.result, e.effects)

namespace Session

variable {s s' : Session} {item : Item} {items : List Item}

open Classical in
/-- What a session shows, item by item. If an item does not end, those after it are not evaluated. -/
noncomputable def transcript (s : Session) :
    List Item → List (Conduct (Except SessionError (Option Float)))
  | [] => []
  | item :: rest => s.conduct item ::
    if h : ∃ fuel, (s.evalItem fuel item).isSome then
      ((s.evalItem h.choose item).get h.choose_spec).session.transcript rest
    else []

/-- One of the items cannot be linked. -/
def Refused (t : List (Conduct (Except SessionError (Option Float)))) : Prop :=
  ∃ c ∈ t, ∃ l e, Image.Refusal e ∧ c.ends l (.error (.link e))

theorem exists_ends_iff :
    (∃ l r, (s.conduct item).ends l r) ↔ ∃ fuel, (s.evalItem fuel item).isSome := by
  constructor
  · rintro ⟨l, r, fuel, e, he, -, -⟩
    exact ⟨fuel, he ▸ rfl⟩
  · rintro ⟨fuel, h⟩
    obtain ⟨e, he⟩ := Option.isSome_iff_exists.1 h
    exact ⟨_, e.result, fuel, e, he, rfl, rfl⟩

open Classical in
theorem Consistent.transcript_cons (hs : s.Consistent) (item : Item) (rest : List Item) :
    s.transcript (item :: rest) = s.conduct item ::
      if ∃ l r, (s.conduct item).ends l r then (s.after item).transcript rest else [] := by
  simp only [transcript, exists_ends_iff]
  split
  · next h =>
    -- the session after an item does not depend on the fuel
    rw [(hs.result?_of_evalItem (Option.some_get h.choose_spec).symm).2]
  · rfl

theorem Consistent.refusal (hs : s.Consistent) {e : LinkError} (h : s.stage item = .unlinked e) :
    Image.Refusal e := by
  have hstaged := s.staged item
  rw [h] at hstaged
  cases hstaged with
  | unlinked hf hprepare =>
    exact Image.prepare_refusal (hs.compiled hf).wellFormed.toVerified hprepare

theorem Consistent.refused (hs : s.Consistent) {e : LinkError} (h : s.stage item = .unlinked e)
    (rest : List Item) : Refused (s.transcript (item :: rest)) := by
  refine ⟨s.conduct item, List.mem_cons_self .., [], e, hs.refusal h, ?_⟩
  rw [hs.conduct_eq, h]
  exact ⟨rfl, rfl⟩

theorem Consistent.not_refused_after (hs : s.Consistent) {rest : List Item}
    (h : ¬Refused (s.transcript (item :: rest))) (hends : ∃ l r, (s.conduct item).ends l r) :
    ¬Refused ((s.after item).transcript rest) := by
  rintro ⟨c, hc, hrefused⟩
  rw [hs.transcript_cons, if_pos hends] at h
  exact h ⟨c, .tail _ hc, hrefused⟩

theorem Parallel.matched_of_not_refused (h : s.Parallel s') {rest : List Item}
    (hs : ¬Refused (s.transcript (item :: rest))) (hs' : ¬Refused (s'.transcript (item :: rest))) :
    Matched s s' item (s.stage item) (s'.stage item) :=
  h.matched item (.inr ⟨fun _ he => hs (h.consistent.refused he rest),
    fun _ he => hs' (h.consistent'.refused he rest)⟩)

/-- Sessions that cannot be told apart show the same, if everything can be linked in both. -/
theorem Parallel.transcript_eq (h : s.Parallel s') (hs : ¬Refused (s.transcript items))
    (hs' : ¬Refused (s'.transcript items)) : s'.transcript items = s.transcript items := by
  induction items generalizing s s' with
  | nil => rfl
  | cons item rest ih =>
    have hmatched := h.matched_of_not_refused hs hs'
    have hconduct := h.conduct_eq hmatched
    rw [h.consistent.transcript_cons, h.consistent'.transcript_cons, hconduct]
    split
    · next hends =>
      rw [ih (h.after hmatched) (h.consistent.not_refused_after hs hends)
        (h.consistent'.not_refused_after hs' (hconduct ▸ hends))]
    · rfl

/-! ### Effects -/

theorem Parallel.hosts (h : s.Parallel s') : s'.image.hosts = s.image.hosts := by
  obtain ⟨R, hR⟩ := h.image
  exact hR.corresponds.hosts

/-- The same calls of host functions have the same effects in both sessions. -/
theorem Parallel.effects_eq (h : s.Parallel s')
    (hnames : (s.image.hosts.toList.map (·.name)).Nodup) (hlist : s.options.listCode = false)
    (hlist' : s'.options.listCode = false) {fuel fuel' : Nat} {e e' : Evaluated}
    (he : s.evalItem fuel item = some e) (he' : s'.evalItem fuel' item = some e')
    (hcalls : s'.hostCalls fuel' item = s.hostCalls fuel item) : e'.effects = e.effects := by
  have heffects' := effects_evalItem hlist' he'
  rw [hcalls] at heffects'
  exact (effects_evalItem hlist he).unique hnames (heffects'.of_hosts h.hosts)

/-- Sessions that cannot be told apart evaluate items with the same results and effects. -/
theorem Parallel.shown_eq (h : s.Parallel s')
    (hnames : (s.image.hosts.toList.map (·.name)).Nodup) (hlist : s.options.listCode = false)
    (hlist' : s'.options.listCode = false) (hs : ¬Refused (s.transcript items))
    (hs' : ¬Refused (s'.transcript items)) {fuel : Nat} {es : List Evaluated} {t : Session}
    (heval : s.evalItems fuel items = some (es, t)) :
    ∃ fuel' es' t', s'.evalItems fuel' items = some (es', t') ∧
      es'.map Evaluated.shown = es.map Evaluated.shown := by
  induction items generalizing s s' es with
  | nil =>
    cases heval
    exact ⟨0, [], s', rfl, rfl⟩
  | cons item rest ih =>
    obtain ⟨e, he, heval⟩ := Option.bind_eq_some_iff.1 heval
    obtain ⟨⟨es₁, t₁⟩, hrest, heval⟩ := Option.bind_eq_some_iff.1 heval
    cases heval
    have hmatched := h.matched_of_not_refused hs hs'
    obtain ⟨fuel₁, e', he', hresult, hcalls, hparallel⟩ := h.evalItem hmatched he
    have heffects := h.effects_eq hnames hlist hlist' he he' hcalls
    have hsession := (h.consistent.result?_of_evalItem he).2
    have hsession' := (h.consistent'.result?_of_evalItem he').2
    rw [hsession] at hrest hparallel
    rw [hsession'] at hparallel
    obtain ⟨fuel₂, es', t', hrest', hshown⟩ := ih hparallel
      (h.consistent.hosts_after item ▸ hnames) (s.options_after item ▸ hlist)
      (s'.options_after item ▸ hlist')
      (h.consistent.not_refused_after hs ⟨_, _, fuel, e, he, rfl, rfl⟩)
      (h.consistent'.not_refused_after hs' ⟨_, _, fuel₁, e', he', rfl, rfl⟩) hrest
    refine ⟨_, e' :: es', t', evalItems_cons he' (hsession' ▸ hrest'), ?_⟩
    rw [List.map_cons, List.map_cons, hshown, Evaluated.shown, hresult, heffects]
    rfl

/-! ### Sessions without items -/

theorem foldl_addHost (s : Session) (hosts : List HostFn) :
    hosts.foldl addHost s = { s with image := hosts.foldl Image.addHost s.image } := by
  induction hosts generalizing s with
  | nil => rfl
  | cons host hosts ih => exact ih (s.addHost host)

theorem parallel_start {options options' : SessionOptions} (hosts : List HostFn)
    (h : options'.maxDepth = options.maxDepth) :
    (start options hosts).Parallel (start options' hosts) := by
  have hs := (blank_start options hosts).consistent
  have hs' := (blank_start options' hosts).consistent
  rw [start, foldl_addHost] at hs hs' ⊢
  rw [start, foldl_addHost]
  exact ⟨hs, hs', rfl, h, _, hs.image.corresponds, fun _ => Image.sameCode_self _⟩

theorem nodup_names_start (options : SessionOptions) (hosts : List HostFn) :
    ((start options hosts).image.hosts.toList.map (·.name)).Nodup := by
  refine List.foldlRecOn hosts addHost
    (motive := fun s => (s.image.hosts.toList.map HostFn.name).Nodup) ?_ ?_
  · exact List.nodup_nil
  · exact fun s hs host _ => Image.nodup_names_addHost hs host

/-- Whether a session optimises code cannot be seen: as long as every item can be linked with and
without optimisation, each has the same result or the same error in both sessions, or goes on forever
in both, and calls the same functions of the host, in the same order and with the same arguments. So
if no code is listed and the items come to an end in one session, they do so in the other, with the
same effects. -/
theorem transcript_optimize (options : SessionOptions) (hosts : List HostFn) (items : List Item)
    (h : ∀ optimize, ¬Refused ((start { options with optimize } hosts).transcript items)) :
    (start { options with optimize := true } hosts).transcript items =
      (start { options with optimize := false } hosts).transcript items ∧
    (options.listCode = false → ∀ optimize fuel es t,
      (start { options with optimize } hosts).evalItems fuel items = some (es, t) →
      ∃ fuel' es' t',
        (start { options with optimize := !optimize } hosts).evalItems fuel' items = some (es', t') ∧
        es'.map Evaluated.shown = es.map Evaluated.shown) := by
  have hparallel (b b' : Bool) : (start { options with optimize := b } hosts).Parallel
      (start { options with optimize := b' } hosts) := parallel_start hosts rfl
  refine ⟨(hparallel false true).transcript_eq (h false) (h true), ?_⟩
  intro hlist optimize fuel es t heval
  have hquiet (b : Bool) :
      (start { options with optimize := b } hosts).options.listCode = false := by
    rw [options_start]
    exact hlist
  exact (hparallel optimize !optimize).shown_eq (nodup_names_start _ hosts) (hquiet _) (hquiet _)
    (h optimize) (h !optimize) heval

/-- Every item is linked, if those before it end. -/
def linksAll (s : Session) : List Item → Bool
  | [] => true
  | item :: rest => match s.stage item with
    | .unlinked _ => false
    | _ => (s.after item).linksAll rest

theorem Consistent.stage_of_ends (hs : s.Consistent) {l : List Call} {e : LinkError}
    (h : (s.conduct item).ends l (.error (.link e))) : s.stage item = .unlinked e := by
  rw [hs.conduct_eq] at h
  split at h
  · cases h.2
  · cases h.2
  · cases h.2
  · next he =>
    cases h.2
    exact he
  · obtain ⟨r | r, -, hr⟩ := h <;> cases hr

theorem Consistent.not_refused (hs : s.Consistent) (h : s.linksAll items = true) :
    ¬Refused (s.transcript items) := by
  induction items generalizing s with
  | nil => exact fun ⟨c, hc, _⟩ => nomatch hc
  | cons item rest ih =>
    rintro ⟨c, hc, l, e, he, hends⟩
    rw [linksAll] at h
    rw [hs.transcript_cons] at hc
    rcases List.mem_cons.1 hc with rfl | hc
    · rw [hs.stage_of_ends hends] at h
      cases h
    · split at hc
      · split at h
        · cases h
        · exact ih (hs.after item) h ⟨c, hc, l, e, he, hends⟩
      · exact nomatch hc

/-- The host is asked for a number, which is passed to a function with two ways through it. -/
def asking : List Item :=
  [.foreign ⟨"seven", [], .plain⟩,
    .function ⟨"pick", ["x"], .plain⟩
      (.cond (.var "x") (.call "seven" []) (some (.binary '+' (.var "x") (.number 1.0)))),
    .ofExpr (.call "pick" [.call "seven" []])]

/-- A function of the host that reports its calls. -/
def seven : HostFn := ⟨"seven", 0, fun args => (7.0, [.report "seven" args])⟩

theorem transcript_optimize_asking :
    (∀ optimize, ¬Refused ((start { optimize } [seven]).transcript asking)) ∧
    (start { optimize := true } [seven]).transcript asking =
      (start { optimize := false } [seven]).transcript asking ∧
    ∃ fuel es t, (start { optimize := true } [seven]).evalItems fuel asking = some (es, t) ∧
      es.map (fun e => (e.result, Effect.reported e.effects)) =
        [(.ok none, []), (.ok none, []), (.ok (some 7.0), [("seven", []), ("seven", [])])] := by
  have hlinked (optimize : Bool) : ¬Refused ((start { optimize } [seven]).transcript asking) := by
    apply (blank_start _ _).consistent.not_refused
    cases optimize <;> decide +kernel
  have hplain : ((start { optimize := false } [seven]).evalItems 50 asking).map
      (fun x => x.1.map fun e => (e.result, Effect.reported e.effects)) =
    some [(.ok none, []), (.ok none, []), (.ok (some 7.0), [("seven", []), ("seven", [])])] := by
    decide +kernel
  obtain ⟨⟨es, t⟩, heval, hes⟩ := Option.map_eq_some_iff.1 hplain
  obtain ⟨htranscript, hshown⟩ := transcript_optimize {} [seven] asking hlinked
  obtain ⟨fuel', es', t', heval', hes'⟩ := hshown rfl false 50 es t heval
  refine ⟨hlinked, htranscript, fuel', es', t', heval', ?_⟩
  have hreported := congrArg (List.map fun x => (x.1, Effect.reported x.2)) hes'
  rw [List.map_map, List.map_map] at hreported
  exact hreported.trans hes

end Session

end ScalarLang
