import JamCompiler.Proofs.Emission.Calls

/-!
# Calls of methods

The table of calls that comes with object code. Code is made before the methods it calls have
addresses, and linked when all have them: what is known of the unlinked code, that a call has a
receiver exactly if its method is not static and that no other item calls into the code, is carried
over to the instructions with the table, entry by entry.
-/

namespace JamCompiler

open Machine Emission Generation

/-- The instruction that calls a method at an address. -/
def MethodHead.callAt (head : MethodHead) (address : Nat) : Instruction :=
  { op := if head.isStatic then .call else .calli, r := .cb, d := address }

theorem MethodHead.callAt_callsMethod (head : MethodHead) (address : Nat) :
    (head.callAt address).CallsMethod := by
  unfold callAt
  cases head.isStatic
  · exact ⟨.inr rfl, rfl⟩
  · exact ⟨.inl rfl, rfl⟩

namespace Generation

section Table

variable {code : Code} {base a : Nat} {d : Decl}

/-- The table has just the calls in the code. -/
theorem mem_callsFrom : (a, d) ∈ callsFrom base code ↔
    ∃ k receiver, code[k]? = some (.call receiver d) ∧ a = base + k := by
  induction code generalizing base with
  | nil => simp [callsFrom]
  | cons item rest ih =>
    have later : (a, d) ∈ callsFrom (base + 1) rest ↔
        ∃ k receiver, (item :: rest)[k + 1]? = some (.call receiver d) ∧ a = base + (k + 1) := by
      simp only [ih, List.getElem?_cons_succ, Nat.add_assoc, Nat.add_comm 1]
    cases item with
    | instr i =>
      rw [callsFrom, later]
      constructor
      · rintro ⟨k, receiver, found, here⟩
        exact ⟨k + 1, receiver, found, here⟩
      · rintro ⟨k, receiver, found, here⟩
        cases k with
        | zero => cases found
        | succ k => exact ⟨k, receiver, found, here⟩
    | call receiver method =>
      rw [callsFrom, List.mem_cons, later]
      constructor
      · rintro (here | ⟨k, receiver, found, here⟩)
        · cases here
          exact ⟨0, receiver, rfl, rfl⟩
        · exact ⟨k + 1, receiver, found, here⟩
      · rintro ⟨k, receiver, found, here⟩
        cases k with
        | zero =>
          cases found
          exact .inl (by rw [here, Nat.add_zero])
        | succ k => exact .inr ⟨k, receiver, found, here⟩

theorem le_of_mem_callsFrom (h : (a, d) ∈ callsFrom base code) : base ≤ a := by
  obtain ⟨k, -, -, rfl⟩ := mem_callsFrom.mp h
  exact Nat.le_add_right _ _

theorem nodup_callsFrom : ((callsFrom base code).map Prod.fst).Nodup := by
  induction code generalizing base with
  | nil => exact List.nodup_nil
  | cons item rest ih =>
    cases item with
    | instr i => exact ih
    | call receiver method =>
      refine List.nodup_cons.mpr ⟨fun again => ?_, ih⟩
      obtain ⟨⟨a, d⟩, found, same⟩ := List.mem_map.mp again
      have le := le_of_mem_callsFrom found
      dsimp only at same
      omega

end Table

/-- The prelude has one call of a method. -/
theorem eq_entryCall {staticSize entry a : Nat} {i : Instruction}
    (hi : (prelude staticSize entry)[a]? = some i) (calls : i.CallsMethod) : a = entryCall := by
  match a, hi with
  | 0, hi | 1, hi | 4, hi =>
    cases hi
    rcases calls.1 with op | op <;> cases op
  | 2, hi =>
    cases hi
    cases calls.2
  | 3, _ => rfl

end Generation

section Code

variable {p : Program} {c : Compilation} {o : ObjectCode}

/-- What an entry of the table of calls says: at the address is the call of a method of the program,
by the address at which the code of this method begins. -/
structure Compilation.CallResolved (c : Compilation) (p : Program) (o : ObjectCode) (addr : Nat)
    (site : Site) (m : MethodDecl) (target : Nat) : Prop where
  mem : (site, m) ∈ p.sitedMethods
  located : c.locations.get? site = some (.code target)
  code : ∃ m' t, MethodCode c o site m m' t target
  call : o.code[addr]? = some (m.head.callAt target)

/-- The table of calls is exact, and each entry is resolved. -/
structure Compilation.CallsExact (c : Compilation) (p : Program) (o : ObjectCode) : Prop where
  nodup : (o.patches.map Prod.fst).Nodup
  addresses : ∀ a, a ∈ o.patches.map Prod.fst ↔ ∃ i, o.code[a]? = some i ∧ i.CallsMethod
  resolved : ∀ q ∈ o.patches, ∃ site m target,
    q.2 = .method (.user site) m.head ∧ c.CallResolved p o q.1 site m target
  first : ∃ site head, o.patches.head? = some (3, .method (.user site) head) ∧
    p.entry? = .ok (site, head) ∧ o.code[3]?.map Instruction.d = some (o.entry : Int)
  printing : ∀ q ∈ o.patches, q.2 ≠ Predefined.println

/-- A linked item that calls a method is a call item. -/
theorem callsMethod_of_linked {env : Env} {item : Item} {i : Instruction} (h : Linked env item i)
    (calling : Calling p item) (calls : i.CallsMethod) :
    ∃ s ∈ p.sitedMethods, item = .call (!s.2.head.isStatic) (.method (.user s.1) s.2.head) := by
  cases item with
  | instr j =>
    cases h
    exact absurd calls calling
  | call receiver method =>
    obtain ⟨s, hs, rfl, rfl⟩ := calling
    exact ⟨s, hs, rfl⟩

theorem linked_call {env : Env} {site : Site} {head : MethodHead} {i : Instruction}
    (h : Linked env (.call (!head.isStatic) (.method (.user site) head)) i) :
    ∃ target, env.located site = some (.code target) ∧ i = head.callAt target := by
  obtain ⟨site', target, home, located, rfl⟩ := h
  cases home
  refine ⟨target, located, ?_⟩
  unfold MethodHead.callAt
  cases head.isStatic <;> rfl

/-- The addresses in the table are those of the entry's call and of calls after the prelude. -/
theorem Generation.Generated.nodup_patches {p' : Program} {env : Env} {main : Site × MethodHead}
    {code : Code} (h : Generated p p' env main code o) : (o.patches.map Prod.fst).Nodup := by
  rw [h.patches]
  refine List.nodup_cons.mpr ⟨fun again => ?_, nodup_callsFrom⟩
  obtain ⟨⟨a, d⟩, found, same⟩ := List.mem_map.mp again
  have le := le_of_mem_callsFrom found
  cases same
  exact absurd le (by decide)

/-- Each entry of the table is resolved, with the method that it says. -/
theorem Accepted.callsResolved (h : Accepted p c o) : ∀ q ∈ o.patches, ∃ site m target,
    q.2 = .method (.user site) m.head ∧ c.CallResolved p o q.1 site m target := by
  obtain ⟨⟨mainSite, mainHead⟩, code, generated⟩ := h.generated
  obtain ⟨⟨main, hmain, rfl⟩, static⟩ := Program.mem_sitedMethods_of_entry generated.entry
  have calling := h.toChecked.calling rfl generated.returning generated.methods
  rintro ⟨a, d⟩ hq
  rw [generated.patches] at hq
  rcases List.mem_cons.mp hq with here | later
  · cases here
    obtain ⟨m', t, start, made⟩ := h.methodCode hmain
    cases made.located.symm.trans generated.address
    refine ⟨mainSite, main, o.entry, rfl, hmain, generated.address, ⟨m', t, made⟩, ?_⟩
    rw [generated.at_prelude (k := entryCall) (by decide), MethodHead.callAt, if_pos static]
    rfl
  · obtain ⟨k, receiver, found, rfl⟩ := mem_callsFrom.mp later
    obtain ⟨⟨site, m⟩, hm, rfl, rfl⟩ := calling _ (List.mem_of_getElem? found)
    obtain ⟨i, hi, both⟩ := generated.linked_at found
    obtain ⟨target, located, rfl⟩ := linked_call both
    obtain ⟨m', t, start, made⟩ := h.methodCode hm
    cases made.located.symm.trans located
    exact ⟨site, m, target, rfl, hm, located, ⟨m', t, made⟩, hi⟩

/-- Where the object code calls a method, the table has an entry. -/
theorem Accepted.mem_patches_of_calls (h : Accepted p c o) {a : Nat} {i : Instruction}
    (hi : o.code[a]? = some i) (calls : i.CallsMethod) : a ∈ o.patches.map Prod.fst := by
  obtain ⟨main, code, generated⟩ := h.generated
  have calling := h.toChecked.calling rfl generated.returning generated.methods
  rw [generated.patches]
  by_cases low : a < codeStart
  · obtain rfl := eq_entryCall (generated.at_prelude low ▸ hi) calls
    exact List.mem_cons_self
  · obtain ⟨k, rfl⟩ := Nat.exists_eq_add_of_le (Nat.le_of_not_lt low)
    obtain ⟨item, hk, both⟩ := generated.item_at hi
    obtain ⟨s, hs, rfl⟩ := callsMethod_of_linked both (calling _ (List.mem_of_getElem? hk)) calls
    have entry : (codeStart + k, Decl.method (.user s.1) s.2.head) ∈ callsFrom codeStart code :=
      mem_callsFrom.mpr ⟨k, _, hk, rfl⟩
    exact List.mem_cons_of_mem _ (List.mem_map.mpr ⟨_, entry, rfl⟩)

theorem Accepted.callsExact (h : Accepted p c o) : c.CallsExact p o where
  nodup := by
    obtain ⟨main, code, generated⟩ := h.generated
    exact generated.nodup_patches
  addresses := by
    refine fun a => ⟨fun ha => ?_, fun ⟨i, hi, calls⟩ => h.mem_patches_of_calls hi calls⟩
    obtain ⟨q, hq, rfl⟩ := List.mem_map.mp ha
    obtain ⟨site, m, target, -, entry⟩ := h.callsResolved q hq
    exact ⟨_, entry.call, m.head.callAt_callsMethod target⟩
  resolved := h.callsResolved
  first := by
    obtain ⟨⟨mainSite, mainHead⟩, code, generated⟩ := h.generated
    refine ⟨mainSite, mainHead, by rw [generated.patches]; rfl, generated.entry, ?_⟩
    rw [generated.at_prelude (by decide)]
    rfl
  printing := by
    intro q hq println
    obtain ⟨site, m, target, own, -⟩ := h.callsResolved q hq
    rw [own] at println
    cases println

end Code

/-- In a text that compiles, the table of calls has just the addresses of the calls of methods, each
once and with the method that is called there. -/
theorem patches_exact {text : List Char} {failFast : Bool} {r : CompileResult}
    (compiled : compile text failFast = .ok r) (ok : r.status = .success) :
    ∃ p c o, Program.ofText? text = .ok p ∧ r.compilation = some c ∧ r.object = some o ∧
      c.CallsExact p o := by
  obtain ⟨p, c, o, parsed, compilation, object, accepted⟩ := accepted_of_compile compiled ok
  exact ⟨p, c, o, parsed, compilation, object, accepted.callsExact⟩

/-- Calls with and without receivers, of methods that come later and of the method they are in, and
printing, which is no entry of the table. -/
def callingText : List Char :=
  ("class A \x7b B b; int f(int n) \x7b return g(b.h(n)) + f(B.k()); \x7d int g(int n) \x7b " ++
    "return n; \x7d \x7d " ++
    "class B \x7b int h(int n) \x7b System.out.println(n); return B.k(); \x7d " ++
    "static int k() \x7b return 1; \x7d public static void main(String[] a) \x7b \x7d \x7d").toList

theorem callingText_exact : ∃ r, compile callingText false = .ok r ∧ r.status = .success ∧
    ∃ p c o, Program.ofText? callingText = .ok p ∧ r.compilation = some c ∧ r.object = some o ∧
      o.patches.length = 6 ∧ c.CallsExact p o := by
  obtain ⟨r, compiled, ok⟩ := exists_ok_of_any (x := compile callingText false)
    (P := fun r => r.status = .success && r.object.any fun o => o.patches.length = 6)
    (by decide +kernel)
  simp only [Bool.and_eq_true, decide_eq_true_eq, Option.any_eq_true] at ok
  obtain ⟨ok, o, object, entries⟩ := ok
  obtain ⟨p, c, o', parsed, compilation, object', exact⟩ := patches_exact compiled ok
  cases object.symm.trans object'
  exact ⟨r, compiled, ok, p, c, o, parsed, compilation, object, entries, exact⟩

end JamCompiler
