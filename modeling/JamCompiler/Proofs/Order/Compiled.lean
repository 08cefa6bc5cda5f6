import JamCompiler.Proofs.Generating
import JamCompiler.Proofs.Order.Bindings

/-!
# Compiling arranged programs

What a text needs to be compiled, once its names are resolved, does not hang on the order of its
classes: whether it is well typed, has an entry, ends its methods with returns and instantiates only
classes of its own. What may hang on it is whether all references are bound.
-/

namespace JamCompiler

/-- Whether a text is compiled to object code. -/
def Compiles (text : List Char) (failFast : Bool) : Prop :=
  ∃ r, compile text failFast = .ok r ∧ r.status = .success

namespace Program

variable {p : Program} {failFast : Bool}

/-- Whether names are resolved without an error, and what they are bound to then. -/
def ResolvesTo (p : Program) (failFast : Bool) (bound : Site → Option Decl) : Prop :=
  ∃ c t, (p.start failFast).resolve = (c, t, .ok ()) ∧ c.log.isClean ∧ c.bindings.get? = bound

theorem ResolvesTo.settled {bound : Site → Option Decl} (h : p.ResolvesTo failFast bound) :
    p.Resolvable ∧ p.Settled bound := by
  obtain ⟨c, t, resolved, clean, rfl⟩ := h
  obtain ⟨resolvable, settled, -⟩ := settled_of_resolve resolved clean
  exact ⟨resolvable, settled⟩

theorem ResolvesTo.unique {bound bound' : Site → Option Decl} (h : p.ResolvesTo failFast bound)
    (h' : p.ResolvesTo failFast bound') : bound = bound' := by
  obtain ⟨c, t, resolved, -, rfl⟩ := h
  obtain ⟨c', t', resolved', -, rfl⟩ := h'
  cases resolved.symm.trans resolved'
  rfl

/-- What can be resolved is resolved without an error. -/
theorem Resolvable.resolvesTo (resolvable : p.Resolvable) (failFast : Bool) :
    ∃ bound, p.ResolvesTo failFast bound := by
  obtain ⟨⟨⟩, n, strictly, -⟩ := (Resolving.resolve_decides p).ends resolvable
  obtain ⟨w, run, -, clean⟩ :=
    ((Resolving.names_resolve p).clean_iff { failFast := failFast } {} n ()).mpr
      ⟨_, strictly, rfl⟩
  refine ⟨_, { p.start failFast with log := w.log, bindings := w.own.bindings }, w.own.table, ?_,
    List.isEmpty_iff.mpr clean, rfl⟩
  simp only [Compilation.resolve, Compilation.runResolving, start, Pass.run, run]

end Program

/-- What a text that is read needs to be compiled. -/
theorem compiles_iff {text : List Char} {failFast : Bool} {p : Program}
    (parsed : Program.ofText? text = .ok p) :
    Compiles text failFast ↔ ∃ bound, p.ResolvesTo failFast bound ∧ Typing.AllBound bound p.uses ∧
      p.WellTyped bound ∧ p.Generable := by
  constructor
  · rintro ⟨r, compiled, success⟩
    obtain ⟨p', c, c₁, c₂, t, o, parsed', resolved, clean, checked, clean₁, generated, -⟩ :=
      stages_of_compile compiled success
    cases parsed.symm.trans parsed'
    obtain ⟨-, -, program, -⟩ := Program.settled_of_resolve resolved clean
    have types : c.types = {} := by rw [Compilation.resolve_keeps resolved]; rfl
    have written := Program.written_of_ofText parsed
    obtain ⟨typed, known, -⟩ := Compilation.typed_of_check checked clean₁ (program ▸ written) types
    rw [program] at typed known
    refine ⟨_, ⟨c, t, resolved, clean, rfl⟩, known, typed, ?_⟩
    by_contra missing
    obtain ⟨c₃, f, pos, stopped, -⟩ :=
      (generates_or_misses parsed resolved clean checked clean₁).2 missing
    cases generated.symm.trans stopped
  · rintro ⟨_, ⟨c, t, resolved, clean, rfl⟩, -, typed, generable⟩
    obtain ⟨-, -, program, -⟩ := Program.settled_of_resolve resolved clean
    have types : c.types = {} := by rw [Compilation.resolve_keeps resolved]; rfl
    cases run : (Typing.check c.bindings.get? p).run c.log {} with
    | mk w answer =>
      have kept := (Typing.clean_iff_wellTyped run).mpr typed
      obtain rfl := Typing.ended_of_clean run kept
      have checked : c.check = ({ c with log := w.log, types := w.own }, .ok ()) := by
        simp only [Compilation.check, program, types, run]
      have clean₁ : w.log.isClean := List.isEmpty_iff.mpr (kept.trans (List.isEmpty_iff.mp clean))
      obtain ⟨c₂, o, generated, log⟩ :=
        (generates_or_misses parsed resolved clean checked clean₁).1 generable
      have clean₂ : c₂.log.isClean := by rw [log]; exact clean₁
      have whole : compile text failFast = p.compile failFast := by simp only [compile, parsed]
      rw [Compiles, whole, Program.compile_of_resolve resolved clean]
      simp only [checked, generated, CompileResult.afterStage, clean₁, clean₂, if_true]
      exact ⟨_, rfl, rfl⟩

namespace Arrangement

variable {g : Arrangement} {classes : List ClassDecl} {p : Program} {after : Site → Option Decl}

/-- What names were bound to before a move. -/
noncomputable def pulled (g : Arrangement) (after : Site → Option Decl) (site : Site) :
    Option Decl :=
  (after (site.moved g)).bind (Function.partialInv (Decl.moved g))

theorem pulled_eq {site : Site} {o : Option Decl}
    (h : after (site.moved g) = o.map (Decl.moved g)) : g.pulled after site = o := by
  rw [pulled, h]
  cases o with
  | none => rfl
  | some d => exact Function.partialInv_left (Decl.moved_injective g) d

/-- Where all names are bound to what they mean after a move, they were so before it. -/
theorem Arranges.complete (h : g.Arranges classes p) (ok : p.Collectable)
    (settled : p.Settled after) (complete : p.Complete after) :
    (Program.mk classes 0).Complete (g.pulled after) := by
  intro k c hk u hu
  have follows := h.follows ok
  obtain ⟨c', hk', hu'⟩ := h.mem_uses hk hu
  have there := complete _ c' hk' _ hu'
  have within := settled.within _ c' hk' _ hu'
  -- the names of a reference are bound to what it denotes
  have refs {ctx : Resolving.Context} {locals : Scope} {site : Site} {r : Reference}
      (at' : g.Moves k site (site.moved g))
      (there : ∀ l ∈ (r.shift (g.distance k)).links (site.moved g), ∀ slot ∈ l.2.slots l.1,
        after slot = (l.2.denote? p.known (ctx.moved g) (Scope.moved g locals)).join) :
      ∀ l ∈ r.links site, ∀ slot ∈ l.2.slots l.1, g.pulled after slot =
        (l.2.denote? (Program.mk classes 0).known ctx locals).join := by
    rw [Reference.links_shift at'] at there
    intro l hl slot hs
    have below : g.Moves k l.1 (l.1.moved g) := at'.below (Reference.links_below l hl)
    have found := there _ (List.mem_map_of_mem hl) (slot.moved g) (by
      rw [Reference.slots_shift below]
      exact List.mem_map_of_mem hs)
    refine pulled_eq (found.trans ?_)
    rw [follows.denote]
    cases l.2.denote? (Program.mk classes 0).known ctx locals with
    | none => rfl
    | some o => cases o <;> rfl
  cases u with
  | declare | branch | foreign => trivial
  | type site t =>
    have at' : g.Moves k site (site.moved g) := .of_moved (within _ (List.suffix_refl _))
    intro n hn
    have found := there (n.1.moved g, n.2) (by
      rw [TypeExpr.classNames_shift at']
      exact List.mem_map_of_mem hn)
    refine pulled_eq (found.trans ?_)
    rw [follows.classes, Option.map_map, Option.map_map]
    rfl
  | ref ctx locals site r | callee ctx locals site r =>
    exact refs (.of_moved (within _ (List.suffix_refl _))) there

theorem Arranges.forall_sitedMethods (h : g.Arranges classes p) {P : Site × MethodDecl → Prop} :
    (∀ m ∈ p.sitedMethods, P m) ↔
      ∀ m ∈ (Program.mk classes 0).sitedMethods, P (g.movedMethod m) := by
  simp only [h.sitedMethods_perm.mem_iff, List.forall_mem_map]

/-- Whether bodies are well typed does not hang on the order of the classes. -/
theorem Arranges.wellTyped_iff (h : g.Arranges classes p) (coherent : p.Coherent)
    {before : Site → Option Decl} (complete : (Program.mk classes 0).Complete before)
    (complete' : p.Complete after) :
    p.WellTyped after ↔ (Program.mk classes 0).WellTyped before := by
  unfold Program.WellTyped
  rw [h.forall_sitedMethods]
  refine forall₂_congr fun m hm => ?_
  obtain ⟨k, c, hk, hc⟩ := Program.mem_sitedMethods.mp hm
  obtain ⟨i, found⟩ := List.mem_iff_getElem?.mp hc
  simp only [ClassDecl.sitedMethods, List.getElem?_mapIdx, Option.map_eq_some_iff] at found
  obtain ⟨m, -, rfl⟩ := found
  have at' := (Moves.classAt g k).item 1 i
  have moved : (m.shift (g.distance k)).WellTyped after ((Site.classAt (g.number k)).item 1 i) ↔
      m.WellTyped before ((Site.classAt k).item 1 i) := MethodDecl.wellTyped_shift at' m fun u hu =>
    h.agrees coherent complete complete' hk (Program.mem_uses_of_method hc hu)
  have site :
      ((Site.classAt k).method i).moved g = (Site.classAt (g.number k)).item 1 i := at'.moved
  have number : ((Site.classAt k).method i).classNumber = k := at'.classNumber
  simp only [movedMethod, site, number]
  exact moved

end Arrangement

section Trees

variable (n : Nat)

mutual

theorem Expr.news_shift (e : Expr) : (e.shift n).news = e.news.map (·.shift n) := by
  match e with
  | .int .. | .bool .. | .null .. | .ref .. | .unknown .. | .newObject .. => rfl
  | .unary _ operand _ => exact operand.news_shift
  | .binary _ left right _ =>
    simp only [Expr.shift, Expr.news, List.map_append, left.news_shift, right.news_shift]
  | .index _ i _ => exact i.news_shift
  | .call _ args _ => exact Expr.argNews_shift args
  | .newArray _ size _ => exact size.news_shift

theorem Expr.argNews_shift (es : List Expr) :
    Expr.argNews (Expr.shiftAll n es) = (Expr.argNews es).map (·.shift n) := by
  match es with
  | [] => rfl
  | e :: rest =>
    simp only [Expr.shiftAll, Expr.argNews, List.map_append, e.news_shift, Expr.argNews_shift rest]

end

mutual

theorem Stmt.news_shift (s : Stmt) : (s.shift n).news = s.news.map (·.shift n) := by
  match s with
  | .ret none _ | .unknown .. => rfl
  | .block stmts _ => exact Stmt.allNews_shift stmts
  | .declare _ init _ => exact init.news_shift n
  | .assign _ value _ => exact value.news_shift n
  | .assignIndex _ index value _ =>
    simp only [Stmt.shift, Stmt.news, List.map_append, Expr.news_shift]
  | .call _ args _ => exact Expr.argNews_shift n args
  | .ret (some value) _ => exact value.news_shift n
  | .ifThen cond body _ | .loop cond body _ =>
    simp only [Stmt.shift, Stmt.news, List.map_append, Expr.news_shift, body.news_shift]
  | .ifElse cond body other _ =>
    simp only [Stmt.shift, Stmt.news, List.map_append, Expr.news_shift,
      body.news_shift, other.news_shift]

theorem Stmt.allNews_shift (ss : List Stmt) :
    Stmt.allNews (Stmt.shiftAll n ss) = (Stmt.allNews ss).map (·.shift n) := by
  match ss with
  | [] => rfl
  | s :: rest =>
    simp only [Stmt.shiftAll, Stmt.allNews, List.map_append, s.news_shift, Stmt.allNews_shift rest]

end

theorem TypeExpr.instantiable_shift (t : TypeExpr) : (t.shift n).Instantiable ↔ t.Instantiable := by
  cases t <;> exact Iff.rfl

theorem TypeExpr.isVoid_shift (t : TypeExpr) : (t.shift n).isVoid = t.isVoid := by
  cases t with
  | base b pos => cases b <;> rfl
  | named | array | unknown => rfl

theorem TypeExpr.isStringArray_shift (t : TypeExpr) :
    (t.shift n).isStringArray = t.isStringArray := by
  cases t with
  | array element pos => cases element <;> rfl
  | base | named | unknown => rfl

theorem Stmt.isReturn_shift (s : Stmt) : (s.shift n).isReturn = s.isReturn := by
  cases s with
  | ret value pos => cases value <;> rfl
  | block | declare | assign | assignIndex | call | ifThen | ifElse | loop | unknown => rfl

theorem Stmt.shiftAll_eq_map (ss : List Stmt) : Stmt.shiftAll n ss = ss.map (·.shift n) := by
  induction ss with
  | nil => rfl
  | cons s rest ih => rw [shiftAll, ih, List.map_cons]

theorem MethodDecl.returns_iff {m : MethodDecl} :
    m.Returns ↔ ∀ last, m.body.getLast? = some last → last.isReturn ∨ m.head.result.isVoid := by
  unfold Returns returning
  cases m.body.getLast? with
  | none => simp
  | some last =>
    simp only [Option.some.injEq, forall_eq']
    split
    · rename_i isReturn
      simp [isReturn]
    · rename_i isReturn
      split
      · rename_i isVoid
        simp [isVoid]
      · rename_i isVoid
        simp [isReturn, isVoid]

theorem MethodDecl.returns_shift (m : MethodDecl) : (m.shift n).Returns ↔ m.Returns := by
  rw [returns_iff, returns_iff]
  show (∀ last, (Stmt.shiftAll n m.body).getLast? = some last → _) ↔ _
  rw [Stmt.shiftAll_eq_map, List.getLast?_map]
  cases m.body.getLast? with
  | none => simp
  | some last =>
    simp only [Option.map_some, Option.some.injEq, forall_eq', Stmt.isReturn_shift]
    exact or_congr_right (by rw [← TypeExpr.isVoid_shift n m.head.result]; rfl)

theorem MethodHead.entryFault_shift (head : MethodHead) :
    (head.shift n).entryFault? = none ↔ head.entryFault? = none := by
  unfold entryFault? shift
  dsimp only
  rw [TypeExpr.isVoid_shift]
  split
  · simp
  split
  · simp
  split
  · simp
  cases head.params with
  | nil => simp
  | cons p rest =>
    cases rest with
    | nil =>
      simp only [List.map_cons, List.map_nil, ParamDecl.shift, TypeExpr.isStringArray_shift]
      split <;> simp
    | cons q rest => simp

end Trees

theorem Program.exists_entry_iff {p : Program} :
    (∃ main, p.entry? = .ok main) ↔ ∃ main, p.mains = [main] ∧ main.2.entryFault? = none := by
  unfold entry?
  constructor
  · rintro ⟨main, found⟩
    split at found
    · cases found
    · cases found
    · rename_i only
      split at found
      · cases found
      · rename_i ok
        exact ⟨_, only, ok⟩
  · rintro ⟨main, only, ok⟩
    exact ⟨main, by simp only [only, ok]⟩

namespace Arrangement

variable {g : Arrangement} {classes : List ClassDecl} {p : Program}

theorem Arranges.mains_perm (h : g.Arranges classes p) :
    p.mains.Perm ((Program.mk classes 0).mains.map
    fun m => (m.1.moved g, m.2.shift (g.distance m.1.classNumber))) := by
  refine (h.sitedMethods_perm.filterMap _).trans (.of_eq ?_)
  rw [List.filterMap_map]
  unfold Program.mains
  rw [List.map_filterMap]
  refine List.filterMap_congr fun m _ => ?_
  obtain ⟨site, m⟩ := m
  show (if m.head.name = "main" then _ else _) =
      Option.map _ (if m.head.name = "main" then _ else _)
  split <;> rfl

/-- Whether there is an entry does not hang on the order of the classes. -/
theorem Arranges.entry_iff (h : g.Arranges classes p) :
    (∃ main, p.entry? = .ok main) ↔ ∃ main, Program.entry? ⟨classes, 0⟩ = .ok main := by
  rw [Program.exists_entry_iff, Program.exists_entry_iff]
  have perm := h.mains_perm
  constructor
  · rintro ⟨main, only, ok⟩
    rw [only] at perm
    obtain ⟨main', only', rfl⟩ := List.map_eq_singleton_iff.mp (List.singleton_perm.mp perm).symm
    exact ⟨main', only', (MethodHead.entryFault_shift _ _).mp ok⟩
  · rintro ⟨main, only, ok⟩
    rw [only, List.map_singleton, List.perm_singleton] at perm
    exact ⟨_, perm, (MethodHead.entryFault_shift _ _).mpr ok⟩

/-- Whether something is missing for code does not hang on the order of the classes. -/
theorem Arranges.generable_iff (h : g.Arranges classes p) :
    p.Generable ↔ (Program.mk classes 0).Generable := by
  have each {P : MethodDecl → Prop} (moves : ∀ n m, P (m.shift n) ↔ P m) :
      (∀ c ∈ p.classes, ∀ m ∈ c.methods, P m) ↔
        ∀ c ∈ (Program.mk classes 0).classes, ∀ m ∈ c.methods, P m := by
    rw [← Program.forall_sitedMethods, ← Program.forall_sitedMethods, h.forall_sitedMethods]
    exact forall₂_congr fun m _ => moves _ m.2
  have returns := each fun n m => m.returns_shift n
  have news := each (P := fun m => AllInstantiable (Stmt.allNews m.body)) fun n m => by
    show AllInstantiable (Stmt.allNews (Stmt.shiftAll n m.body)) ↔ _
    simp only [Stmt.allNews_shift, AllInstantiable, List.forall_mem_map,
      TypeExpr.instantiable_shift]
  exact ⟨fun ok => ⟨h.entry_iff.mp ok.entry, returns.mp ok.returns, news.mp ok.news⟩,
    fun ok => ⟨h.entry_iff.mpr ok.entry, returns.mpr ok.returns, news.mpr ok.news⟩⟩

end Arrangement

/-- Whether names are resolved without an error, and a link is forward then. -/
def Program.LeavesForward (p : Program) (failFast : Bool) : Prop :=
  ∃ bound, p.ResolvesTo failFast bound ∧ ∃ l ∈ p.links, Forward bound l

namespace Arrangement

variable {g g' : Arrangement} {classes : List ClassDecl} {p p' : Program}
  {failFast failFast' : Bool}
  {text text' : List Char} {bound bound' : Site → Option Decl}

/-- Where the classes of a text that compiles stand in another order, the names are resolved without
an error, and the text compiles exactly if no link is forward then. -/
theorem Arranges.compiles_iff (h : g.Arranges classes p) (h' : g'.Arranges classes p')
    (parsed : Program.ofText? text = .ok p) (parsed' : Program.ofText? text' = .ok p')
    (compiles : Compiles text failFast) :
    (∃ bound', p'.ResolvesTo failFast' bound') ∧
      (Compiles text' failFast' ↔ ¬ p'.LeavesForward failFast') := by
  obtain ⟨bound, resolves, known, typed, generable⟩ := (JamCompiler.compiles_iff parsed).mp compiles
  obtain ⟨resolvable, settled⟩ := resolves.settled
  have coherent := resolvable.coherent settled known
  have coherent' : p'.Coherent := h'.coherent_iff.mpr (h.coherent_iff.mp coherent)
  obtain ⟨bound', resolves'⟩ := coherent'.resolvable.resolvesTo failFast'
  obtain ⟨resolvable', settled'⟩ := resolves'.settled
  have allBound_iff := Program.allBound_iff settled' resolvable'
  refine ⟨⟨bound', resolves'⟩, fun compiles' => ?_, fun none => ?_⟩
  · obtain ⟨bound'', resolves'', known', -⟩ := (JamCompiler.compiles_iff parsed').mp compiles'
    obtain rfl := resolves''.unique resolves'
    rintro ⟨_, again, l, hl, forward⟩
    obtain rfl := again.unique resolves'
    exact allBound_iff.mp known' l hl forward
  · have known' := allBound_iff.mpr fun l hl forward => none ⟨bound', resolves', l, hl, forward⟩
    have complete : p.Complete bound :=
      fun k c hk u hu => settled.bound_known resolvable known hk hu
    have complete' : p'.Complete bound' :=
      fun k c hk u hu => settled'.bound_known resolvable' known' hk hu
    have before := h.complete resolvable.collectable settled complete
    have typed' := (h'.wellTyped_iff coherent' before complete').mpr
      ((h.wellTyped_iff coherent before complete).mp typed)
    exact (JamCompiler.compiles_iff parsed').mpr ⟨bound', resolves', known', typed',
      h'.generable_iff.mpr (h.generable_iff.mp generable)⟩

/-- A reference and its site after the class was moved. -/
def movedLink (g : Arrangement) (l : Site × Reference) : Site × Reference :=
  (l.1.moved g, l.2.shift (g.distance l.1.classNumber))

/-- Whether a reference of the classes is bound, with its name, where the class was moved to. -/
def Binds (g : Arrangement) (bound : Site → Option Decl) (l : Site × Reference) : Prop :=
  ∀ slot ∈ l.2.slots l.1, (bound (slot.moved g)).isSome

/-- Whether a reference stands in the class numbered `k`, and where. -/
def Refers (k : Nat) (c : ClassDecl) (ctx : Resolving.Context) (locals : Scope) (site : Site)
    (r : Reference) : Prop :=
  Use.ref ctx locals site r ∈ c.uses (.classAt k) ∨
    Use.callee ctx locals site r ∈ c.uses (.classAt k)

section Links

variable {k : Nat} {c : ClassDecl} {ctx : Resolving.Context} {locals : Scope}
  {site : Site} {r : Reference}
  {l : Site × Reference}

/-- A reference of a class is resolved where the class stands in an arranged program. -/
theorem Arranges.resolved (h : g.Arranges classes p) (settled : p.Settled bound)
    (resolvable : p.Resolvable) (hk : classes[k]? = some c) (hu : Refers k c ctx locals site r) :
    g.Moves k site (site.moved g) ∧
      p.Resolved bound (g.number k) (ctx.moved g) (Scope.moved g locals)
      (site.moved g) (r.shift (g.distance k)) := by
  rcases hu with hu | hu
  · obtain ⟨c', hk', hu'⟩ := h.mem_uses hk hu
    have within := settled.within _ c' hk' _ hu'
    exact ⟨.of_moved (within _ (List.suffix_refl _)),
      settled.resolved_at resolvable hk' hu' (.inl rfl)⟩
  · obtain ⟨c', hk', hu'⟩ := h.mem_uses hk hu
    have within := settled.within _ c' hk' _ hu'
    exact ⟨.of_moved (within _ (List.suffix_refl _)),
      settled.resolved_at resolvable hk' hu' (.inr rfl)⟩

theorem movedLink_links (at' : g.Moves k l.1 (l.1.moved g)) :
    (g.movedLink l).2.links (g.movedLink l).1 = (l.2.links l.1).map g.movedLink ∧
      (g.movedLink l).2.slots (g.movedLink l).1 = (l.2.slots l.1).map (Site.moved g) := by
  unfold movedLink
  dsimp only
  rw [at'.classNumber, Reference.links_shift at', Reference.slots_shift at']
  refine ⟨List.map_congr_left fun l' hl' => ?_, rfl⟩
  rw [(at'.below (Reference.links_below l' hl')).classNumber]

/-- What a name in a class is bound to, after the class was moved, is what it means in all classes,
moved. -/
theorem Arranges.denoted (h : g.Arranges classes p) (settled : p.Settled bound)
    (resolvable : p.Resolvable) (hk : classes[k]? = some c) (hu : Refers k c ctx locals site r)
    (hl : l ∈ r.links site) {slot : Site} (hs : slot ∈ l.2.slots l.1) {d : Decl}
    (found : bound (slot.moved g) = some d) :
    ∃ e, l.2.denote? (Program.mk classes 0).known ctx locals = some (some e) ∧ d = e.moved g := by
  obtain ⟨at', resolved⟩ := h.resolved settled resolvable hk hu
  have below := at'.below (Reference.links_below l hl)
  have link :
      (l.1.moved g, l.2.shift (g.distance k)) ∈ (r.shift (g.distance k)).links (site.moved g) := by
    rw [Reference.links_shift at']
    exact List.mem_map_of_mem hl
  have slot' : slot.moved g ∈ (l.2.shift (g.distance k)).slots (l.1.moved g) := by
    rw [Reference.slots_shift below]
    exact List.mem_map_of_mem hs
  have denoted := resolved.denote_known link slot' found
  rw [(h.follows resolvable.collectable).denote] at denoted
  obtain ⟨o, known, same⟩ := Option.map_eq_some_iff.mp denoted
  obtain ⟨e, rfl, rfl⟩ := Option.map_eq_some_iff.mp same
  exact ⟨e, known, rfl⟩

/-- A reference of the classes stands in some class, in a use of it or qualifying one. -/
theorem exists_refers (hl : l ∈ (Program.mk classes 0).links) : ∃ k c ctx locals site r,
    classes[k]? = some c ∧ Refers k c ctx locals site r ∧ l ∈ r.links site := by
  obtain ⟨u, hu, r, hr, hl⟩ := Program.mem_links.mp hl
  obtain ⟨k, c, hk, hu⟩ := Program.mem_uses.mp hu
  cases u with
  | type | declare | branch | foreign => cases hr
  | ref ctx locals site r =>
    obtain rfl := List.mem_singleton.mp hr
    exact ⟨k, c, ctx, locals, site, r, hk, .inl hu, hl⟩
  | callee ctx locals site r =>
    obtain rfl := List.mem_singleton.mp hr
    exact ⟨k, c, ctx, locals, site, r, hk, .inr hu, hl⟩

/-- A reference of the classes is bound after a move exactly if no link of it is
forward then. -/
theorem Arranges.bound_iff (h : g.Arranges classes p) (settled : p.Settled bound)
    (resolvable : p.Resolvable) (hl : l ∈ (Program.mk classes 0).links) :
    g.Binds bound l ↔ ∀ l' ∈ l.2.links l.1, ¬ Forward bound (g.movedLink l') := by
  obtain ⟨k, c, ctx, locals, site, r, hk, hu, hl⟩ := exists_refers hl
  obtain ⟨at', resolved⟩ := h.resolved settled resolvable hk hu
  have below := at'.below (Reference.links_below l hl)
  have link : g.movedLink l ∈ (r.shift (g.distance k)).links (site.moved g) := by
    rw [Reference.links_shift at', movedLink, below.classNumber]
    exact List.mem_map_of_mem hl
  have bound_iff := (resolved.link link).bound_iff resolvable
  rw [(movedLink_links below).1, (movedLink_links below).2, List.forall_mem_map,
    List.forall_mem_map]
    at bound_iff
  exact bound_iff

/-- What is bound in two arrangements is bound to declarations that correspond. -/
theorem Arranges.bound_correspond (h : g.Arranges classes p) (h' : g'.Arranges classes p')
    (resolves : p.ResolvesTo failFast bound) (resolves' : p'.ResolvesTo failFast' bound')
    (hl : l ∈ (Program.mk classes 0).links) {slot : Site} (hs : slot ∈ l.2.slots l.1) {d d' : Decl}
    (found : bound (slot.moved g) = some d) (found' : bound' (slot.moved g') = some d') :
    ∃ e : Decl, d = e.moved g ∧ d' = e.moved g' := by
  obtain ⟨k, c, ctx, locals, site, r, hk, hu, hl⟩ := exists_refers hl
  obtain ⟨resolvable, settled⟩ := resolves.settled
  obtain ⟨resolvable', settled'⟩ := resolves'.settled
  obtain ⟨e, denoted, rfl⟩ := h.denoted settled resolvable hk hu hl hs found
  obtain ⟨e', denoted', rfl⟩ := h'.denoted settled' resolvable' hk hu hl hs found'
  cases denoted.symm.trans denoted'
  exact ⟨e, rfl, rfl⟩

end Links

end Arrangement

end JamCompiler
