import JamCompiler.Proofs.Naming.SecondLook

/-!
# Chains of references

How far a reference is bound. Its links are resolved from the innermost qualifier outwards, and each
link is bound once its qualifier is. So either all of them are, and nothing is reported, or the
links before some link are, and that link, at which at most one error is recorded, is left as it was
with all that come after it. Nothing is assumed of the state in which the reference is resolved.
-/

namespace JamCompiler

open Pass

namespace Resolving

variable {ctx : Context} {site : Site} {r : Reference} {w v : Work Naming}
  {d : Decl} {forward : Prop}

/-- What a search for a declaration comes to: it finds one, or reports that there is none, or, on
some condition, gives up without a word. -/
inductive Searches (forward : Prop) (x : Resolving (Option Decl)) (w : Work Naming) : Prop
  | finds (d : Decl) (run : EStateM.run x w = .ok (some d) w)
  | reports (fault : NameFault) (pos : Nat)
      (run : EStateM.run x w = EStateM.run (do reportName fault pos; return none) w)
  | misses (cause : forward) (run : EStateM.run x w = .ok none w)

namespace Searches

variable {x : Resolving (Option Decl)}

theorem found (d : Decl) (w : Work Naming) : Searches forward (return some d) w := .finds d rfl

theorem refuse (fault : NameFault) (pos : Nat) (w : Work Naming) :
    Searches forward (do reportName fault pos; return none) w := .reports fault pos rfl

theorem table {f : ScopeTable → Resolving (Option Decl)} (h : Searches forward (f w.own.table) w) :
    Searches forward (Resolving.table >>= f) w := by
  cases h with
  | finds d run => exact .finds d run
  | reports fault pos run => exact .reports fault pos run
  | misses cause run => exact .misses cause run

/-- Where nothing is found there is nothing to go on with. -/
theorem run_bind_of_reports {α : Type} {x : Resolving (Option α)}
    {f : Option α → Resolving (Option α)} {fault : NameFault} {pos : Nat}
    (nothing : f none = pure none)
    (run : EStateM.run x w = EStateM.run (do reportName fault pos; return none) w) :
    EStateM.run (x >>= f) w = EStateM.run (do reportName fault pos; return none) w := by
  rw [EStateM.run_bind, run, EStateM.run_bind]
  cases EStateM.run (reportName fault pos) w with
  | ok u w' => simp only [EStateM.run_pure, nothing]
  | error stop w' => rfl

/-- A search that goes on with what was found. -/
theorem next {f : Option Decl → Resolving (Option Decl)} (h : Searches forward x w)
    (nothing : f none = pure none) (something : ∀ d, Searches forward (f (some d)) w) :
    Searches forward (x >>= f) w := by
  cases h with
  | finds d run =>
    have same : EStateM.run (x >>= f) w = EStateM.run (f (some d)) w := by
      rw [EStateM.run_bind, run]
    cases something d with
    | finds e run' => exact .finds e (same.trans run')
    | reports fault pos run' => exact .reports fault pos (same.trans run')
    | misses cause run' => exact .misses cause (same.trans run')
  | reports fault pos run => exact .reports fault pos (run_bind_of_reports nothing run)
  | misses cause run =>
    refine .misses cause ?_
    rw [EStateM.run_bind, run]
    simp only [EStateM.run_pure, nothing]

end Searches

theorem searches_nameOf (ctx : Context) (name : Identifier) (w : Work Naming) :
    Searches forward (nameOf ctx name) w := by
  refine Searches.table ?_
  split
  · exact .refuse _ _ _
  · split
    · exact .refuse _ _ _
    · split
      · split
        · exact .refuse _ _ _
        · exact .refuse _ _ _
      · exact .found _ _

theorem searches_memberOf (ctx : Context) (c : ClassRef) (name : Identifier) (w : Work Naming) :
    Searches forward (memberOf ctx c name) w := by
  refine Searches.table ?_
  split
  · exact .refuse _ _ _
  · split
    · exact .refuse _ _ _
    · exact .found _ _

/-- A member is missed only where the type of what comes before it is a class of which nothing is
known. -/
theorem searches_memberAfter (ctx : Context) (qualifier : Reference) (base : Decl)
    (name : Identifier) (w : Work Naming) :
    Searches (∃ text, base.type w.own.bindings.get? = .cls text none)
      (memberAfter ctx qualifier base name) w := by
  unfold memberAfter
  split
  · exact .refuse _ _ _
  · exact searches_memberOf _ _ _ _
  · refine (searches_memberOf _ _ _ _).next rfl fun d => ?_
    dsimp only
    split
    · exact .found _ _
    · exact .refuse _ _ _
  · have value : EStateM.run (memberOfValue ctx base qualifier.pos name) w =
        EStateM.run (memberOfType ctx base qualifier.pos name (base.type w.own.bindings.get?))
        w := by
      rw [memberOfValue_eq]
      rfl
    have typed : Searches (∃ text, base.type w.own.bindings.get? = .cls text none)
        (memberOfType ctx base qualifier.pos name (base.type w.own.bindings.get?)) w := by
      match base.type w.own.bindings.get? with
      | .array _ =>
        rw [memberOfType]
        split
        · exact .found _ _
        · exact .refuse _ _ _
      | .cls _ (some c) => exact searches_memberOf ctx c name w
      | .cls text none => exact .misses ⟨text, rfl⟩ rfl
      | .base _ => exact .refuse _ _ _
    cases typed with
    | finds d run => exact .finds d (value.trans run)
    | reports fault pos run => exact .reports fault pos (value.trans run)
    | misses cause run => exact .misses cause (value.trans run)

/-- What is bound with a link is bound: the reference and, if it has one, its name. -/
def LinkBound (m : SiteMap Decl) (l : Site × Reference) : Prop :=
  ∀ s ∈ l.2.slots l.1, (m.get? s).isSome

/-- What is bound with a link is what it was bound to before, if anything. -/
def LinkKept (m m' : SiteMap Decl) (l : Site × Reference) : Prop :=
  ∀ s ∈ l.2.slots l.1, m'.get? s = m.get? s

/-- The sites that are bound with some links. -/
def linkSlots (links : List (Site × Reference)) : Region := fun s => ∃ l ∈ links, s ∈ l.2.slots l.1

/-- How the run of a link leaves `v` without a declaration: with one error, or, where the type of
its qualifier is a class of which nothing is known, without any. -/
inductive Fails (ctx : Context) (l : Site × Reference) (w v : Work Naming) :
    Except Stop (Option Decl) → Prop
  | reported (e : Diagnostic) : v.log.errors = w.log.errors ++ [e] → Fails ctx l w v (.ok none)
  | aborted (e : Diagnostic) :
    v.log.errors = w.log.errors ++ [e] → Fails ctx l w v (.error (.aborted e))
  | missed {qualifier : Reference} {name : Identifier} {pos : Nat} {base : Decl} {text : String} :
      v.log = w.log → l.2 = .qualified qualifier name pos →
      (resolveRef ctx l.1.qualifier qualifier).run w.log w.own = (v, .ok (some base)) →
      base.type v.own.bindings.get? = .cls text none → Fails ctx l w v (.ok none)

/-- How far a chain of links, the last of which is resolved first, is bound when its resolution
leaves `v`: all of it, or what comes before the link at which it failed. -/
inductive Reached (ctx : Context) (w v : Work Naming) :
    List (Site × Reference) → Except Stop (Option Decl) → Prop
  | all {links : List (Site × Reference)} (d : Decl) : v.log = w.log →
      (∀ l ∈ links, LinkBound v.own.bindings l) →
      (∀ l ∈ links, ∃ u d, (resolveRef ctx l.1 l.2).run w.log w.own = (u, .ok (some d))) →
      Reached ctx w v links (.ok (some d))
  | front {later earlier : List (Site × Reference)} {link : Site × Reference}
      {answer : Except Stop (Option Decl)} :
      (∀ l ∈ earlier, LinkBound v.own.bindings l) →
      (∀ l ∈ earlier, ∃ u d, (resolveRef ctx l.1 l.2).run w.log w.own = (u, .ok (some d))) →
      (resolveRef ctx link.1 link.2).run w.log w.own = (v, answer) → Fails ctx link w v answer →
      (∀ l ∈ later ++ [link], LinkKept w.own.bindings v.own.bindings l) →
      Reached ctx w v (later ++ link :: earlier) answer

theorem fails_of_refused {l : Site × Reference} {e : Diagnostic}
    {answer : Except Stop (Option Decl)} (errors : v.log.errors = w.log.errors ++ [e])
    (ends : answer = .ok none ∨ answer = .error (.aborted e)) : Fails ctx l w v answer := by
  rcases ends with rfl | rfl
  · exact .reported e errors
  · exact .aborted e errors

theorem Fails.errors {l : Site × Reference} {answer : Except Stop (Option Decl)}
    (h : Fails ctx l w v answer) :
    v.log.errors = w.log.errors ∨ ∃ e, v.log.errors = w.log.errors ++ [e] := by
  cases h with
  | reported e errors => exact .inr ⟨e, errors⟩
  | aborted e errors => exact .inr ⟨e, errors⟩
  | missed log => exact .inl (by rw [log])

theorem Reached.errors {links : List (Site × Reference)} {answer : Except Stop (Option Decl)}
    (h : Reached ctx w v links answer) :
    v.log.errors = w.log.errors ∨ ∃ e, v.log.errors = w.log.errors ++ [e] := by
  cases h with
  | all d log => exact .inl (by rw [log])
  | front _ _ _ fails => exact fails.errors

theorem Fails.ne_found {l : Site × Reference} {answer : Except Stop (Option Decl)}
    (h : Fails ctx l w v answer) (d : Decl) : answer ≠ .ok (some d) := by
  cases h with
  | reported | aborted | missed => exact nofun

theorem run_then {α β : Type} {x : Resolving α} {f : α → Resolving β} {a : α}
    (first : x.run w.log w.own = (v, .ok a)) :
    (x >>= f).run w.log w.own = (f a).run v.log v.own := by
  unfold Pass.run at first ⊢
  rw [EStateM.run_bind]
  split at first
  · rename_i run
    cases first
    rw [run]
  · cases first

theorem run_stopped {α β : Type} {x : Resolving α} {f : α → Resolving β} {stop : Stop}
    (first : x.run w.log w.own = (v, .error stop)) :
    (x >>= f).run w.log w.own = (v, .error stop) := by
  unfold Pass.run at first ⊢
  rw [EStateM.run_bind]
  split at first
  · cases first
  · rename_i run
    cases first
    rw [run]

theorem run_fill (s : Site) (d : Decl) (w : Work Naming) : EStateM.run (Resolving.bind s d) w =
    .ok ((w.own.bindings.get? s).getD d)
      { w with own := { w.own with bindings := w.own.bindings.fill s d } } := by
  have known := SiteMap.get?_fill_self w.own.bindings s d
  unfold Resolving.bind
  simp only [EStateM.run_bind, run_modifyOwn, run_bound, known]
  rfl

/-- What was found is bound, with its name. -/
theorem run_settle (site : Site) (d : Decl) (w : Work Naming) : ∃ e m,
    EStateM.run (settle site (some d)) w =
      .ok (some e) { w with own := { w.own with bindings := m } } ∧
      w.own.bindings.Grown (ownSlots site) m ∧ m.get? site = some e ∧
      (m.get? site.name).isSome := by
  have other : site.name ≠ site := site.child_ne_self 1
  have first := run_fill site.name d w
  have second := run_fill site ((w.own.bindings.get? site.name).getD d)
    { w with own := { w.own with bindings := w.own.bindings.fill site.name d } }
  refine ⟨_, (w.own.bindings.fill site.name d).fill site ((w.own.bindings.get? site.name).getD d),
    ?_, ?_, SiteMap.get?_fill_self _ _ _, ?_⟩
  · rw [settle, EStateM.run_bind, first]
    dsimp only
    rw [EStateM.run_bind, second]
    rfl
  · exact SiteMap.Grown.trans
      ⟨SiteMap.get?_fill_of_some,
        fun outside => SiteMap.get?_fill_of_ne _ _ fun same => outside (.inr same)⟩
      ⟨SiteMap.get?_fill_of_some,
        fun outside => SiteMap.get?_fill_of_ne _ _ fun same => outside (.inl same)⟩
  · rw [SiteMap.get?_fill_of_ne _ _ other, SiteMap.get?_fill_self]
    rfl

/-- How the last step at a link ends: its slots are bound, or nothing is changed but the log. -/
inductive Ended (forward : Prop) (site : Site) (w v : Work Naming) :
    Except Stop (Option Decl) → Prop
  | bound (d : Decl) : v.log = w.log → w.own.bindings.Grown (ownSlots site) v.own.bindings →
      v.own.table = w.own.table → v.own.bindings.get? site = some d →
      (v.own.bindings.get? site.name).isSome → Ended forward site w v (.ok (some d))
  | failed (e : Diagnostic) {answer : Except Stop (Option Decl)} : v.own = w.own →
      v.log.notes = w.log.notes → v.log.errors = w.log.errors ++ [e] →
      (answer = .ok none ∨ answer = .error (.aborted e)) → Ended forward site w v answer
  | missed : forward → v = w → Ended forward site w v (.ok none)

theorem run_refused (fault : NameFault) (pos : Nat) (w : Work Naming) : ∃ v answer e,
    (do reportName fault pos; return none : Resolving (Option Decl)).run w.log w.own = (v, answer) ∧
      v.own = w.own ∧ v.log.notes = w.log.notes ∧ v.log.errors = w.log.errors ++ [e] ∧
      (answer = .ok none ∨ answer = .error (.aborted e)) := by
  refine ⟨⟨w.log.addError (.naming fault) pos, w.own⟩, ?_⟩
  rw [Pass.run, EStateM.run_bind, reportName, run_report]
  by_cases mode : w.log.failFast
  · rw [if_pos mode]
    exact ⟨_, _, rfl, rfl, rfl, rfl, .inr rfl⟩
  · rw [if_neg mode]
    exact ⟨_, _, rfl, rfl, rfl, rfl, .inl rfl⟩

/-- What a search finds is bound at once. -/
theorem Searches.ended {x : Resolving (Option Decl)} (h : Searches forward x w) (site : Site) :
    ∃ v answer, (x >>= settle site).run w.log w.own = (v, answer) ∧
      Ended forward site w v answer := by
  cases h with
  | finds d run =>
    obtain ⟨e, m, settled, grown, here, name⟩ := run_settle site d w
    refine ⟨{ w with own := { w.own with bindings := m } }, _, ?_, .bound e rfl grown rfl here name⟩
    rw [Pass.run, EStateM.run_bind, run]
    dsimp only
    rw [settled]
  | reports fault pos run =>
    obtain ⟨v, answer, e, refused, same, notes, errors, ends⟩ := run_refused fault pos w
    refine ⟨v, answer, ?_, .failed e same notes errors ends⟩
    rw [Pass.run, Searches.run_bind_of_reports (f := settle site) rfl run]
    exact refused
  | misses cause run =>
    refine ⟨w, .ok none, ?_, .missed cause rfl⟩
    rw [Pass.run, EStateM.run_bind, run]
    rfl

/-- What resolving a chain leaves: the same table and notes, nothing bound but its slots, and these
as far as said. -/
structure Chained (ctx : Context) (site : Site) (r : Reference) (w v : Work Naming)
    (answer : Except Stop (Option Decl)) : Prop where
  run : (resolveRef ctx site r).run w.log w.own = (v, answer)
  table : v.own.table = w.own.table
  notes : v.log.notes = w.log.notes
  grown : w.own.bindings.Grown (linkSlots (r.links site)) v.own.bindings
  answered : ∀ d, answer = .ok (some d) → v.own.bindings.get? site = some d
  reached : Reached ctx w v (r.links site) answer

/-- That `u` is left when all of some links are bound. -/
structure Prepared (ctx : Context) (links : List (Site × Reference)) (w u : Work Naming) :
    Prop where
  log : u.log = w.log
  table : u.own.table = w.own.table
  grown : w.own.bindings.Grown (linkSlots links) u.own.bindings
  bound : ∀ l ∈ links, LinkBound u.own.bindings l
  resolved : ∀ l ∈ links, ∃ u d, (resolveRef ctx l.1 l.2).run w.log w.own = (u, .ok (some d))

theorem prepared_nil (ctx : Context) (w : Work Naming) : Prepared ctx [] w w :=
  ⟨rfl, rfl, .refl _ _, nofun, nofun⟩

theorem LinkBound.grown {region : Region} {m m' : SiteMap Decl} {l : Site × Reference}
    (h : LinkBound m l) (grown : m.Grown region m') : LinkBound m' l := by
  intro s hs
  obtain ⟨d, known⟩ := Option.isSome_iff_exists.mp (h s hs)
  rw [grown.kept known]
  rfl

theorem linkSlots_tail (l : Site × Reference) (ls : List (Site × Reference)) :
    (linkSlots ls).Sub (linkSlots (l :: ls)) :=
  fun _ ⟨k, hk, hs⟩ => ⟨k, List.mem_cons_of_mem l hk, hs⟩

section Named

variable {earlier : List (Site × Reference)} {u : Work Naming} {answer : Except Stop (Option Decl)}

/-- A named link that fails leaves what was bound for the links before it, and its own slots as they
were. -/
theorem Prepared.stopped (h : Prepared ctx earlier w u) (slots : r.slots site = [site, site.name])
    (apart : (ownSlots site).Apart (linkSlots earlier))
    (run : (resolveRef ctx site r).run w.log w.own = (v, answer)) (same : v.own = u.own)
    (fails : Fails ctx (site, r) w v answer) : Reached ctx w v ((site, r) :: earlier) answer := by
  change Reached ctx w v ([] ++ (site, r) :: earlier) answer
  refine .front ?_ h.resolved run fails ?_
  · rw [same]
    exact h.bound
  · intro l hl s hs
    obtain rfl := List.mem_singleton.mp hl
    rw [same]
    refine h.grown.same (apart s ?_)
    rw [slots] at hs
    simpa [ownSlots] using hs

/-- When a named link is bound, with its name, the links before it are still bound. -/
theorem Prepared.all (h : Prepared ctx earlier w u) (slots : r.slots site = [site, site.name])
    (run : (resolveRef ctx site r).run w.log w.own = (v, .ok (some d))) (log : v.log = u.log)
    (grown : u.own.bindings.Grown (ownSlots site) v.own.bindings)
    (here : v.own.bindings.get? site = some d) (name : (v.own.bindings.get? site.name).isSome) :
    Reached ctx w v ((site, r) :: earlier) (.ok (some d)) := by
  refine .all d (log.trans h.log) ?_ ?_
  · intro l hl
    rcases List.mem_cons.mp hl with rfl | hl
    · intro s hs
      rw [slots] at hs
      rcases List.mem_pair.mp hs with rfl | rfl
      · rw [here]
        rfl
      · exact name
    · exact (h.bound l hl).grown grown
  · intro l hl
    rcases List.mem_cons.mp hl with rfl | hl
    · exact ⟨v, d, run⟩
    · exact h.resolved l hl

/-- A named link after others that are bound. -/
theorem Prepared.chained (h : Prepared ctx earlier w u)
    (links : r.links site = (site, r) :: earlier) (slots : r.slots site = [site, site.name])
    (apart : (ownSlots site).Apart (linkSlots earlier))
    (run : (resolveRef ctx site r).run w.log w.own = (v, answer))
    (ended : Ended forward site u v answer)
    (missed : forward → v = u → Fails ctx (site, r) w v (.ok none)) :
    Chained ctx site r w v answer := by
  have own : (ownSlots site).Sub (linkSlots (r.links site)) := by
    intro s hs
    refine ⟨(site, r), by rw [links]; exact List.mem_cons_self, ?_⟩
    rw [slots]
    simpa [ownSlots] using hs
  have outer : (linkSlots earlier).Sub (linkSlots (r.links site)) := by
    rw [links]
    exact linkSlots_tail _ _
  have grown := h.grown.up outer
  have stopped (same : v.own = u.own) (fails : Fails ctx (site, r) w v answer) :
      Reached ctx w v (r.links site) answer := by
    rw [links]
    exact h.stopped slots apart run same fails
  cases ended with
  | bound d log grown' table here name =>
    refine ⟨run, table.trans h.table, by rw [log, h.log], grown.trans (grown'.up own), ?_, ?_⟩
    · intro e same
      cases same
      exact here
    · rw [links]
      exact h.all slots run log grown' here name
  | failed e same notes errors ends =>
    rw [h.log] at notes errors
    have fails : Fails ctx (site, r) w v answer := fails_of_refused errors ends
    exact ⟨run, by rw [same, h.table], notes, by rw [same]; exact grown,
      fun d answered => absurd answered (fails.ne_found d), stopped same fails⟩
  | missed cause same =>
    refine ⟨run, by rw [same, h.table], by rw [same, h.log], by rw [same]; exact grown, nofun, ?_⟩
    exact stopped (congrArg Work.own same) (missed cause same)

end Named

/-- A link that leaves everything but the log as it was, and that nothing comes before. -/
theorem chained_of_fails {answer : Except Stop (Option Decl)} (links : r.links site = [(site, r)])
    (run : (resolveRef ctx site r).run w.log w.own = (v, answer)) (same : v.own = w.own)
    (notes : v.log.notes = w.log.notes) (fails : Fails ctx (site, r) w v answer) :
    Chained ctx site r w v answer := by
  refine ⟨run, by rw [same], notes, by rw [same]; exact .refl _ _,
    fun d answered => absurd answered (fails.ne_found d), ?_⟩
  rw [links]
  change Reached ctx w v ([] ++ (site, r) :: []) answer
  refine .front nofun nofun run fails fun l _ s _ => ?_
  rw [same]

theorem chained_this (ctx : Context) (site : Site) (pos : Nat) (w : Work Naming) :
    ∃ v answer, Chained ctx site (.this pos) w v answer := by
  cases place : ctx.isStatic with
  | true =>
    obtain ⟨v, answer, e, run, same, notes, errors, ends⟩ := run_refused .thisInStatic pos w
    rw [← resolveRef_this_static place site pos] at run
    exact ⟨v, answer, chained_of_fails rfl run same notes (fails_of_refused errors ends)⟩
  | false =>
    have filled := run_fill site (.cls ctx.cls) w
    have known := SiteMap.get?_fill_self w.own.bindings site (.cls ctx.cls)
    have run : (resolveRef ctx site (.this pos)).run w.log w.own =
        ({ w with own := { w.own with bindings := w.own.bindings.fill site (.cls ctx.cls) } },
          .ok (some ((w.own.bindings.get? site).getD (.cls ctx.cls)))) := by
      rw [resolveRef_this_object place, Pass.run, EStateM.run_bind, filled]
      rfl
    have grown : w.own.bindings.Grown (linkSlots [(site, .this pos)])
        (w.own.bindings.fill site (.cls ctx.cls)) := by
      refine ⟨SiteMap.get?_fill_of_some, fun {s} outside => SiteMap.get?_fill_of_ne _ _ ?_⟩
      rintro rfl
      exact outside ⟨_, List.mem_singleton_self _, List.mem_singleton_self _⟩
    refine ⟨_, _, run, rfl, rfl, grown, ?_, .all _ rfl ?_ ?_⟩
    · rintro d ⟨⟩
      exact known
    · intro l hl s hs
      obtain rfl := List.mem_singleton.mp hl
      obtain rfl := List.mem_singleton.mp hs
      rw [known]
      rfl
    · intro l hl
      obtain rfl := List.mem_singleton.mp hl
      exact ⟨_, _, run⟩

/-- The qualifier of a link, and what comes before, are bound apart from it. -/
theorem ownSlots_apart (site : Site) (qualifier : Reference) :
    (ownSlots site).Apart (linkSlots (qualifier.links site.qualifier)) := by
  rintro s own ⟨l, hl, hs⟩
  have below := (Reference.links_below l hl).trans (Reference.slots_below s hs)
  exact qualifier_apart site s below own

theorem resolveRef_chained (ctx : Context) (site : Site) (r : Reference) (w : Work Naming) :
    ∃ v answer, Chained ctx site r w v answer := by
  induction r generalizing site with
  | this pos => exact chained_this ctx site pos w
  | unknown kind pos =>
    exact ⟨{ w with log := w.log.addError (.naming (.foreign .reference kind)) pos }, _,
      chained_of_fails rfl rfl rfl rfl (.aborted _ rfl)⟩
  | ident name pos =>
    have searches : Searches False (nameOf ctx name) w := searches_nameOf ctx name w
    obtain ⟨v, answer, run, ended⟩ := searches.ended site
    rw [← resolveRef_ident site name pos] at run
    exact ⟨v, answer, (prepared_nil ctx w).chained rfl rfl (fun _ _ => nofun) run ended nofun⟩
  | qualified qualifier name pos ih =>
    obtain ⟨u, first, chained⟩ := ih site.qualifier
    have apart := ownSlots_apart site qualifier
    have grown := chained.grown
    have reached := chained.reached
    have split : (Reference.qualified qualifier name pos).links site =
        (site, .qualified qualifier name pos) :: qualifier.links site.qualifier := rfl
    generalize qualifier.links site.qualifier = ls at apart grown reached split
    cases reached with
    | all base log bound resolved =>
      obtain ⟨v, answer, run, ended⟩ := (searches_memberAfter ctx qualifier base name u).ended site
      have whole :
          (resolveRef ctx site (.qualified qualifier name pos)).run w.log w.own = (v, answer) := by
        rw [resolveRef_qualified, run_then chained.run]
        exact run
      have prepared : Prepared ctx ls w u := ⟨log, chained.table, grown, bound, resolved⟩
      refine ⟨v, answer, prepared.chained split rfl apart whole ended ?_⟩
      rintro ⟨text, type⟩ rfl
      exact .missed log rfl chained.run type
    | @front later earlier link _ bound resolved run fails kept =>
      -- Nothing is done at the links outside the one that failed.
      have whole :
          (resolveRef ctx site (.qualified qualifier name pos)).run w.log w.own = (u, first) := by
        rw [resolveRef_qualified]
        cases fails with
        | reported e errors =>
          rw [run_then chained.run]
          rfl
        | aborted e errors => exact run_stopped chained.run
        | missed =>
          rw [run_then chained.run]
          rfl
      refine ⟨u, first, whole, chained.table, chained.notes, ?_,
        fun d answered => absurd answered (fails.ne_found d), ?_⟩
      · rw [split]
        exact grown.up (linkSlots_tail _ _)
      · rw [split, ← List.cons_append]
        refine .front bound resolved run fails ?_
        rw [List.cons_append]
        intro l hl
        rcases List.mem_cons.mp hl with rfl | hl
        · intro s hs
          refine grown.same (apart s ?_)
          simpa [Reference.slots, ownSlots] using hs
        · exact kept l hl

/-- Resolving a reference reports at most one error. Either it answers a declaration and reports
none, and then the reference, its qualifiers and all their names are bound; or there is a link at
which it fails. The links before that one are bound, which alone would be resolved without an error,
and that one and those after it are as they were, so that they stay unbound where nothing was bound
before. -/
theorem resolveRef_reports_once (ctx : Context) (site : Site) (r : Reference) (w : Work Naming) :
    ∃ v answer, (resolveRef ctx site r).run w.log w.own = (v, answer) ∧
      (v.log.errors = w.log.errors ∨ ∃ e, v.log.errors = w.log.errors ++ [e]) ∧
      w.own.bindings.Grown (linkSlots (r.links site)) v.own.bindings ∧
      ((∃ d, answer = .ok (some d) ∧ v.log = w.log ∧ v.own.bindings.get? site = some d ∧
          ∀ l ∈ r.links site, LinkBound v.own.bindings l) ∨
        ∃ later link earlier, r.links site = later ++ link :: earlier ∧
          (resolveRef ctx link.1 link.2).run w.log w.own = (v, answer) ∧ Fails ctx link w v answer ∧
          (∀ l ∈ earlier, LinkBound v.own.bindings l ∧
            ∃ u d, (resolveRef ctx l.1 l.2).run w.log w.own = (u, .ok (some d))) ∧
          ∀ l ∈ later ++ [link], LinkKept w.own.bindings v.own.bindings l) := by
  obtain ⟨v, answer, chained⟩ := resolveRef_chained ctx site r w
  have reached := chained.reached
  have answered := chained.answered
  refine ⟨v, answer, chained.run, reached.errors, chained.grown, ?_⟩
  generalize r.links site = links at reached ⊢
  cases reached with
  | all d log bound => exact .inl ⟨d, rfl, log, answered d rfl, bound⟩
  | @front later earlier link _ bound resolved run fails kept =>
    exact .inr ⟨later, link, earlier, rfl, run, fails,
      fun l hl => ⟨bound l hl, resolved l hl⟩, kept⟩

end Resolving

end JamCompiler
