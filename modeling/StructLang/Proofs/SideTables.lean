import Mathlib.Data.List.Nodup
import Mathlib.Data.List.Pairwise
import StructLang.Proofs.Acceptance
import StructLang.Proofs.Loading

/-!
# What the tables of an analysis hold

Checking visits every part of every body, however many of its rules are broken: the tables have an entry
for each node and for nothing else, and every declaration is listed for the block in which it stands. The
entries for one body depend on the other functions only through their headers.
-/

namespace StructLang

open Typing

/-! ## Declarations by block -/

mutual

theorem Stmt.lets_perm (s : Stmt) :
    (declarations [s] ++ s.blocks.flatMap fun b => declarations b.stmts).Perm
      (s.lets.map fun d => d.node.id) := by
  cases s with
  | declare d | assign | ret | expr => exact .refl _
  | branch span c t e =>
    cases e with
    | none => exact Block.lets_perm t
    | some e =>
      rw [Stmt.blocks, List.flatMap_append, Stmt.lets, List.map_append]
      exact (Block.lets_perm t).append (Block.lets_perm e)

theorem letsOf_perm (ss : List Stmt) :
    (declarations ss ++ (blocksOf ss).flatMap fun b => declarations b.stmts).Perm
      ((letsOf ss).map fun d => d.node.id) := by
  cases ss with
  | nil => exact .nil
  | cons s rest =>
    have hcons : declarations (s :: rest) = declarations [s] ++ declarations rest :=
      List.filterMap_append (l := [s])
    rw [hcons, blocksOf, List.flatMap_append, letsOf, List.map_append]
    refine .trans ?_ ((Stmt.lets_perm s).append (letsOf_perm rest))
    simp only [List.append_assoc]
    exact .append_left _ (List.perm_append_comm_assoc ..)

/-- Every declaration stands directly in one block. -/
theorem Block.lets_perm (b : Block) : (b.blocks.flatMap fun b => declarations b.stmts).Perm
    (b.lets.map fun d => d.node.id) := by
  cases b with
  | mk n stmts => exact letsOf_perm stmts

end

theorem Program.lets_perm (p : Program) : (p.blocks.flatMap fun b => declarations b.stmts).Perm
    (p.lets.map fun d => d.node.id) := by
  rw [blocks, lets]
  induction p.functions with
  | nil => exact .nil
  | cons g rest ih =>
    simp only [List.flatMap_cons, List.flatMap_append, List.map_append]
    exact g.body.lets_perm.append ih

/-! ## Tables -/

/-- The tables have an entry for each node of the bodies and for nothing else. The list of a block has the
declarations that stand directly in it, in their order, and each declaration is in the list of one block. -/
structure Analysis.Covers (a : Analysis) (p : Program) : Prop where
  types : ∀ id, (a.type? id).isSome ↔ (∃ e ∈ p.exprs, e.id = id) ∨ ∃ d ∈ p.lets, d.node.id = id
  blocks : ∀ id, (a.declared.lookup id).isSome ↔ ∃ b ∈ p.blocks, b.id = id
  declared : ∀ b ∈ p.blocks, a.declared.lookup b.id = some (declarations b.stmts)
  nodup : ∀ b ∈ p.blocks, (a.declaredIn b.id).Nodup
  once : ∀ d ∈ p.lets, ∃! b, b ∈ p.blocks ∧ d.node.id ∈ a.declaredIn b.id

/-- For every program that was read, with or without errors, the tables cover exactly its bodies. -/
theorem tables_cover_tree {p : Program} (hp : p.Sourced) : p.analyze.Covers p := by
  have hkeyed : Keyed p.analyze p.exprs p.lets p.blocks := by
    rw [Program.analyze_eq hp.grammatical.ids_nodup]
    exact p.found_keyed
  have hids := p.ids_perm.nodup_iff.mp hp.grammatical.ids_nodup
  have hdeclared : ∀ b ∈ p.blocks, p.analyze.declared.lookup b.id = some (declarations b.stmts) := by
    intro b hb
    refine lookup_eq_some_of_mem (hkeyed.nodup_declared hids) ?_
    rw [hkeyed.declared]
    exact List.mem_map_of_mem hb
  have hdeclaredIn : ∀ b ∈ p.blocks, p.analyze.declaredIn b.id = declarations b.stmts := by
    intro b hb
    rw [Analysis.declaredIn, hdeclared b hb, Option.getD_some]
  have hlets : (p.lets.map fun d => d.node.id).Nodup :=
    hids.sublist ((List.sublist_append_right _ _).trans (List.sublist_append_left _ _))
  obtain ⟨hnodup, hapart⟩ := List.nodup_flatMap.mp (p.lets_perm.nodup_iff.mpr hlets)
  refine ⟨fun id => ?_, fun id => ?_, hdeclared, fun b hb => ?_, fun d hd => ?_⟩
  · rw [Analysis.type?, lookup_isSome_iff_mem, hkeyed.types.mem_iff, mem_idsOfNodes]
    simp
  · rw [lookup_isSome_iff_mem, hkeyed.declared]
    simp
  · rw [hdeclaredIn b hb]
    exact hnodup b hb
  · have hmem := p.lets_perm.mem_iff.mpr (List.mem_map_of_mem hd)
    obtain ⟨b, hb, hid⟩ := List.mem_flatMap.mp hmem
    have hsymm : Std.Symm (Function.onFun List.Disjoint fun b : Block => declarations b.stmts) :=
      ⟨fun _ _ h _ hx hy => h hy hx⟩
    refine ⟨b, ⟨hb, by rwa [hdeclaredIn b hb]⟩, ?_⟩
    rintro b' ⟨hb', hid'⟩
    by_contra hne
    rw [hdeclaredIn b' hb'] at hid'
    exact hapart.forall hb' hb hne hid' hid

theorem tables_cover_tree_broken : ∃ p next,
    Program.parse Program.brokenSource 0 0 = .ok (p, next) ∧ p.analyze.hasErrors = true ∧
      p.blocks.length = 5 ∧ p.lets.length = 1 ∧ p.analyze.Covers p := by
  obtain ⟨p, next, hparse, htest⟩ := Program.exists_of_parses
    (show Program.parses Program.brokenSource (fun p => p.analyze.hasErrors &&
      (p.blocks.length == 5 && p.lets.length == 1)) = true by decide +kernel)
  rw [Bool.and_eq_true, Bool.and_eq_true, beq_iff_eq, beq_iff_eq] at htest
  exact ⟨p, next, hparse, htest.1, htest.2.1, htest.2.2, tables_cover_tree (.parsed hparse)⟩

/-! ## One body at a time -/

/-- Programs that agree in all but the bodies of functions. -/
structure Program.SameHeaders (p q : Program) : Prop where
  structs : p.structs = q.structs
  foreigns : p.foreigns = q.foreigns
  headers : p.functions.map FnDef.toFnHeader = q.functions.map FnDef.toFnHeader

theorem Program.SameHeaders.symbols {p : Program} (h : p.SameHeaders q) :
    p.symbols = q.symbols := by
  rw [Program.symbols, Program.symbols, h.structs, h.foreigns, h.headers]

/-- The checker when it comes to a function. -/
def Program.analyzerAt (p : Program) (k : Nat) : Analyzer :=
  .checkFunctions p.symbols [] (p.functions.take k) p.startAnalyzer

/-- What is found in functions is what is found in each, one behind the other. -/
theorem exists_checkFunctions (s : Symbols) (seen : List String) (before : List FnDef) (f : FnDef)
    (rest : List FnDef) : ∃ after, checkFunctions s seen (before ++ f :: rest) =
      checkFunctions s seen before ++ (checkFunction s f ++ after) := by
  induction before generalizing seen with
  | nil =>
    change ∃ after, checkFunctions s seen (f :: rest) = checkFunction s f ++ after
    rw [checkFunctions]
    split
    · exact ⟨_, rfl⟩
    · exact ⟨_, Analysis.append_assoc ..⟩
  | cons g before ih =>
    rw [List.cons_append, checkFunctions, checkFunctions]
    split
    · obtain ⟨after, hafter⟩ := ih seen
      exact ⟨after, by rw [hafter, Analysis.append_assoc]⟩
    · obtain ⟨after, hafter⟩ := ih (g.linkage :: seen)
      exact ⟨after, by simp only [hafter, Analysis.append_assoc]⟩

/-- The checker comes to a function with what is found before it, and goes on with what is found in
it. -/
theorem exists_analyze_eq {p : Program} (hn : p.ids.Nodup) (hf : p.functions[k]? = some f) :
    (p.analyzerAt k).result.Fresh (checkFunction p.symbols f) ∧
      ∃ after, p.analyze = (p.analyzerAt k).result ++ checkFunction p.symbols f ++ after := by
  obtain ⟨hlt, rfl⟩ := List.getElem?_eq_some_iff.mp hf
  obtain ⟨after, hafter⟩ := exists_checkFunctions p.symbols [] (p.functions.take k) p.functions[k]
    (p.functions.drop (k + 1))
  rw [← List.drop_eq_getElem_cons hlt, List.take_append_drop] at hafter
  have hfresh : p.startAnalyzer.result.Fresh (checkFunctions p.symbols [] p.functions) :=
    ⟨(checkFunctions_keyed p.symbols [] p.functions).nodup_declared (p.ids_perm.nodup_iff.mp hn),
      fun _ _ => List.not_mem_nil⟩
  rw [hafter] at hfresh
  have hbefore : (p.analyzerAt k).result = _ :=
    (Analyzer.adds_checkFunctions p.symbols [] (p.functions.take k) _).result hfresh.left
  refine ⟨(hfresh.right (by rw [hbefore, Analysis.keys_append])).left,
    after ++ .reports (entryPointReports p.functions), ?_⟩
  rw [Program.analyze_eq hn, hbefore]
  simp only [Program.found, Program.startAnalyzer, hafter, Analysis.append_assoc]

/-- An entry in the middle of a table, if the number stands nowhere else. -/
theorem lookup_middle {α : Type} {before table after : List (Nat × α)} {id : Nat}
    (hbefore : id ∉ before.map Prod.fst)
    (hafter : id ∉ table.map Prod.fst → id ∉ after.map Prod.fst) :
    (before ++ table ++ after).lookup id = table.lookup id := by
  have hnone : ∀ {l : List (Nat × α)}, id ∉ l.map Prod.fst → l.lookup id = none := by
    intro l hl
    rwa [← Option.not_isSome_iff_eq_none, lookup_isSome_iff_mem]
  rw [List.lookup_append, List.lookup_append, hnone hbefore, Option.none_or]
  by_cases hid : id ∈ table.map Prod.fst
  · exact Option.or_of_isSome (lookup_isSome_iff_mem.mpr hid)
  · rw [hnone (hafter hid), Option.or_none]

/-- The entries that one body made, in the tables of the whole. -/
theorem Typing.Keyed.lookup_middle {before : Analysis} (hfound : Keyed found es ds bs)
    (hall : Keyed (before ++ found ++ after) es' ds' bs') (hn : (idsOfNodes es' ds' bs').Nodup)
    {id : Nat} (hid : id ∈ idsOfNodes es ds bs) :
    (before ++ found ++ after).type? id = found.type? id ∧
      (before ++ found ++ after).declared.lookup id = found.declared.lookup id := by
  have hkeys : (((before ++ found ++ after).types.map Prod.fst) ++
      (before ++ found ++ after).declared.map Prod.fst).Nodup := by
    refine (List.Perm.nodup_iff ?_).mpr hn
    rw [hall.declared, List.map_map]
    have h := hall.types
    rw [idsOfNodes, List.map_nil, List.append_nil] at h
    exact h.append_right _
  have hown : id ∈ found.types.map Prod.fst ∨ id ∈ found.declared.map Prod.fst := by
    rw [hfound.types.mem_iff, hfound.declared]
    simpa [idsOfNodes, or_assoc] using hid
  simp only [Analysis.types_append, Analysis.declared_append, List.map_append, List.nodup_append,
    List.mem_append] at hkeys
  constructor
  · exact StructLang.lookup_middle (by grind) (by grind)
  · exact StructLang.lookup_middle (by grind) (by grind)

/-- Function bodies are checked by themselves, although the checker goes from one to the next with its
state. In two programs that agree in all but the bodies of other functions, a function has the same
findings: whatever the scopes, the open blocks, the result type and the result so far, checking the
function adds them to the reports and types, and to the lists of blocks if none of its own has an entry
yet. So it does when its turn comes in either program, and the tables hold in the end what was then found
for the nodes of the body. -/
theorem bodies_checked_apart {p q : Program} (h : p.SameHeaders q) (hp : p.ids.Nodup)
    (hq : q.ids.Nodup) {k : Nat} {f : FnDef} (hpf : p.functions[k]? = some f)
    (hqf : q.functions[k]? = some f) :
    ∃ found : Analysis, ∀ r ∈ [p, q],
      (∀ s : Analyzer,
        (s.checkFunction r.symbols f).result.diagnostics = s.result.diagnostics ++ found.diagnostics ∧
        (s.checkFunction r.symbols f).result.types = s.result.types ++ found.types ∧
        ((∀ b ∈ f.body.blocks, b.id ∉ s.result.declared.map Prod.fst) →
          (s.checkFunction r.symbols f).result = s.result ++ found)) ∧
      ((r.analyzerAt k).checkFunction r.symbols f).result = (r.analyzerAt k).result ++ found ∧
      (∃ after, r.analyze = (r.analyzerAt k).result ++ found ++ after) ∧
      ∀ id ∈ f.body.ids, r.analyze.type? id = found.type? id ∧
        r.analyze.declared.lookup id = found.declared.lookup id := by
  have hkeyed := keyed_checkFunction p.symbols f
  refine ⟨checkFunction p.symbols f, fun r hr => ?_⟩
  have hr : r.symbols = p.symbols ∧ r.ids.Nodup ∧ r.functions[k]? = some f := by
    rcases List.mem_pair.mp hr with rfl | rfl
    · exact ⟨rfl, hp, hpf⟩
    · exact ⟨h.symbols.symm, hq, hqf⟩
  obtain ⟨hsymbols, hn, hf⟩ := hr
  obtain ⟨hfresh, after, hafter⟩ := exists_analyze_eq hn hf
  rw [hsymbols] at hfresh hafter ⊢
  have hadds := Analyzer.adds_checkFunction p.symbols f
  refine ⟨fun s => ⟨(hadds s).diagnostics, (hadds s).types, fun hnew => (hadds s).result ⟨hfresh.nodup, ?_⟩⟩,
    (hadds _).result hfresh, ⟨after, hafter⟩, fun id hid => ?_⟩
  · intro id hid
    rw [Analysis.keys, hkeyed.declared, List.map_map] at hid
    obtain ⟨b, hb, rfl⟩ := List.mem_map.mp hid
    exact hnew b hb
  · have hall := r.found_keyed
    rw [← Program.analyze_eq hn, hafter] at hall
    rw [hafter]
    exact hkeyed.lookup_middle hall (r.ids_perm.nodup_iff.mp hn) (f.body.ids_perm.mem_iff.mp hid)

/-- A function that calls an unknown one, after the entry point with any body. -/
def Program.afterMain (stmts : List Stmt) : Program :=
  ⟨[.fn ⟨⟨"main", "", none, [], .void, default⟩, .mk ⟨0, default⟩ stmts⟩,
    .fn ⟨⟨"f", "", none, [], .i32, default⟩,
      .mk ⟨1, default⟩ [.ret default (some (.call ⟨2, default⟩ "g" []))]⟩]⟩

theorem bodies_checked_apart_afterMain : ∃ (f : FnDef) (found : Analysis), found.hasErrors = true ∧
    ∀ r ∈ [Program.afterMain [], .afterMain [.expr (.var ⟨3, default⟩ "x")]],
      ((r.analyzerAt 1).checkFunction r.symbols f).result = (r.analyzerAt 1).result ++ found ∧
      (∃ after, r.analyze = (r.analyzerAt 1).result ++ found ++ after) ∧
      ∀ id ∈ f.body.ids, r.analyze.type? id = found.type? id ∧
        r.analyze.declared.lookup id = found.declared.lookup id := by
  obtain ⟨found, h⟩ := bodies_checked_apart (p := .afterMain [])
    (q := .afterMain [.expr (.var ⟨3, default⟩ "x")]) (k := 1) ⟨rfl, rfl, rfl⟩ (by decide)
    (by decide) rfl rfl
  refine ⟨_, found, ?_, fun r hr => (h r hr).2⟩
  have hreports := ((h _ List.mem_cons_self).1 {}).1
  rw [Analysis.hasErrors, ← show _ = found.diagnostics from hreports]
  rfl

end StructLang
