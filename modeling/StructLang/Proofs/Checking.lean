import StructLang.Typing.Check

/-!
# What checking adds to its result

Checking goes from state to state, but what it finds in a part depends on the part, the symbols and the
names in scope alone. The functions here give these findings by themselves. From any state, checking adds
them to the result, leaves the open blocks as they were, and closes the frames it opened. The list of a
block is filled one declaration at a time while other blocks are opened and closed: in the end it is the
list of all declarations directly in the block, if no other block has its number.
-/

namespace StructLang

/-- The declarations of one block and nothing else. -/
def Analysis.declares (block : Nat) (decls : List Nat) : Analysis := { declared := [(block, decls)] }

namespace Typing

/-! ## Findings by themselves -/

/-- The numbers of the declarations among statements. -/
def declarations (stmts : List Stmt) : List Nat :=
  stmts.filterMap fun
    | .declare d => some d.node.id
    | _ => none

mutual

/-- The scope behind a statement of a function with the given result type, and what is found in it. -/
def checkStmt (symbols : Symbols) (ret : Ty) (scope : Scope Binding) :
    Stmt → Scope Binding × Analysis
  | .declare d =>
    let (init, a) := inferOption symbols scope d.init
    let verdict := declVerdict symbols d init
    (scope.define d.name ⟨verdict.ty, d.isMutable, false⟩,
      (conclude d.node a verdict).2)
  | .assign span name value =>
    let (t, a) := infer symbols scope value
    (scope, a ++ .reports (reportsAt span (assignIssues scope name t)))
  | .branch _ cond thenBlock elseBlock =>
    let (t, a) := infer symbols scope cond
    let reports := .reports (reportsAt cond.span (conditionIssues t))
    let b := checkBlock symbols ret scope.push thenBlock
    match elseBlock with
    | some e => (scope, a ++ reports ++ b ++ checkBlock symbols ret scope.push e)
    | none => (scope, a ++ reports ++ b)
  | .ret span value =>
    let (t, a) := inferOption symbols scope value
    (scope, a ++ .reports (reportsAt span (returnIssues ret (t.getD .void))))
  | .expr e => (scope, (infer symbols scope e).2)

/-- What is found in statements. -/
def checkStmts (symbols : Symbols) (ret : Ty) (scope : Scope Binding) : List Stmt → Analysis
  | [] => ∅
  | s :: rest =>
    let (inner, a) := checkStmt symbols ret scope s
    a ++ checkStmts symbols ret inner rest

/-- What is found in a block: its declarations stand in one list, whatever stands between them. -/
def checkBlock (symbols : Symbols) (ret : Ty) (scope : Scope Binding) : Block → Analysis
  | .mk node stmts =>
    .declares node.id (declarations stmts) ++ checkStmts symbols ret scope stmts

end

/-- The scope in which the body of a function starts, and what is wrong with its header. -/
def openScope (symbols : Symbols) (f : FnHeader) : Scope Binding × List Diagnostic :=
  let (scope, onReceiver) := bindReceiver symbols Scope.empty.push f
  let (scope, onParams) := bindParams symbols [] scope f.params
  (scope, reportsAt f.span (declaredTypeIssues symbols f.ret) ++ onReceiver ++ onParams)

/-- What is found in a function. -/
def checkFunction (symbols : Symbols) (f : FnDef) : Analysis :=
  let (scope, reports) := openScope symbols f.toFnHeader
  .reports reports ++ checkBlock symbols f.ret scope f.body

/-- What is found in functions that follow functions with the given linkage names. -/
def checkFunctions (symbols : Symbols) : List String → List FnDef → Analysis
  | _, [] => ∅
  | seen, f :: rest =>
    if f.name = entryPoint then checkFunction symbols f ++ checkFunctions symbols seen rest
    else
      let issues : List Issue :=
        if seen.contains f.linkage then [.duplicateFunction f.name] else []
      checkFunction symbols f ++ .reports (reportsAt f.span issues)
        ++ checkFunctions symbols (f.linkage :: seen) rest

end Typing

/-- What is found in a program. -/
def Program.found (p : Program) : Analysis :=
  .reports (Typing.structsReports p.symbols [] p.structs)
    ++ .reports (p.foreigns.flatMap (Typing.foreignReports p.symbols))
    ++ Typing.checkFunctions p.symbols [] p.functions
    ++ .reports (Typing.entryPointReports p.functions)

theorem lookup_isSome_iff_mem {table : List (Nat × α)} {id : Nat} :
    (table.lookup id).isSome ↔ id ∈ table.map Prod.fst := by
  rw [List.lookup_isSome_iff, List.mem_map]
  exact exists_congr fun p => and_congr_right fun _ => by rw [beq_iff_eq, eq_comm]

namespace Analysis

theorem append_assoc (a b c : Analysis) : a ++ b ++ c = a ++ (b ++ c) := by
  rw [Analysis.mk.injEq]
  exact ⟨List.append_assoc .., List.append_assoc .., List.append_assoc ..⟩

@[simp] theorem diagnostics_withBlock (a : Analysis) (block : Nat) :
    (a.withBlock block).diagnostics = a.diagnostics := by
  unfold withBlock
  split <;> rfl

@[simp] theorem types_withBlock (a : Analysis) (block : Nat) :
    (a.withBlock block).types = a.types := by
  unfold withBlock
  split <;> rfl

theorem append_empty (a : Analysis) : a ++ ∅ = a := by
  rw [Analysis.mk.injEq]
  exact ⟨List.append_nil _, List.append_nil _, List.append_nil _⟩

/-- The blocks that have an entry. -/
def keys (a : Analysis) : List Nat := a.declared.map Prod.fst

@[simp] theorem keys_append (a b : Analysis) : (a ++ b).keys = a.keys ++ b.keys := List.map_append

theorem extend_nil (block : Nat) (table : List (Nat × List Nat)) : extend block [] table = table := by
  simp [extend]

theorem extend_extend (block : Nat) (ds ds' : List Nat) (table : List (Nat × List Nat)) :
    extend block ds' (extend block ds table) = extend block (ds ++ ds') table := by
  simp only [extend, List.map_map]
  refine List.map_congr_left fun e _ => ?_
  by_cases h : e.1 = block <;> simp [h]

theorem extend_append (block : Nat) (ds : List Nat) (table table' : List (Nat × List Nat)) :
    extend block ds (table ++ table') = extend block ds table ++ extend block ds table' :=
  List.map_append

theorem extend_of_notMem {a : Analysis} (h : block ∉ a.keys) (ds : List Nat) :
    extend block ds a.declared = a.declared := by
  refine (List.map_congr_left fun e he => if_neg ?_).trans (List.map_id' _)
  rintro rfl
  exact h (List.mem_map_of_mem he)

theorem map_fst_extend (block : Nat) (ds : List Nat) (table : List (Nat × List Nat)) :
    (extend block ds table).map Prod.fst = table.map Prod.fst := by
  rw [extend, List.map_map]
  refine List.map_congr_left fun e _ => ?_
  by_cases h : e.1 = block <;> simp [h]

/-- The blocks of new findings are different ones, and none of them has an entry yet. -/
structure Fresh (found a : Analysis) : Prop where
  nodup : a.keys.Nodup
  new : ∀ id ∈ a.keys, id ∉ found.keys

theorem Fresh.left (h : Fresh found (a ++ b)) : Fresh found a := by
  obtain ⟨hn, hnew⟩ := h
  rw [keys_append] at hn hnew
  exact ⟨(List.nodup_append.mp hn).1, fun id hid => hnew id (List.mem_append_left _ hid)⟩

theorem Fresh.right (h : Fresh found (a ++ b)) (hkeys : found'.keys = found.keys ++ a.keys) :
    Fresh found' b := by
  obtain ⟨hn, hnew⟩ := h
  rw [keys_append] at hn hnew
  obtain ⟨-, hn', hapart⟩ := List.nodup_append.mp hn
  refine ⟨hn', fun id hid hm => ?_⟩
  rw [hkeys, List.mem_append] at hm
  rcases hm with hm | hm
  · exact hnew id (List.mem_append_right _ hid) hm
  · exact hapart id hm id hid rfl

end Analysis

namespace Typing.Analyzer

/-! ## From state to state -/

/-- The state went on by reports and types, with the open blocks as before. -/
structure Goes (s : Analyzer) (a : Analysis) (s' : Analyzer) : Prop where
  blocks : s'.blocks = s.blocks
  diagnostics : s'.result.diagnostics = s.result.diagnostics ++ a.diagnostics
  types : s'.result.types = s.result.types ++ a.types

/-- The state went on by findings; blocks that are new are listed behind the others. -/
structure Adds (s : Analyzer) (a : Analysis) (s' : Analyzer) : Prop extends Goes s a s' where
  declared : s.result.Fresh a → s'.result.declared = s.result.declared ++ a.declared

/-- The state went on by the findings of statements, and the declarations among them are listed for the
innermost open block. -/
structure Steps (own : List Nat) (s : Analyzer) (a : Analysis) (s' : Analyzer) : Prop
    extends Goes s a s' where
  frames : s'.scopes.pop = s.scopes.pop
  ret : s'.ret = s.ret
  declared : ∀ block rest, s.blocks = block :: rest → block ∈ s.result.keys → s.result.Fresh a →
    s'.result.declared = Analysis.extend block own s.result.declared ++ a.declared

theorem Goes.trans (h : Goes s a s') (h' : Goes s' a' s'') : Goes s (a ++ a') s'' := by
  refine ⟨h'.blocks.trans h.blocks, ?_, ?_⟩
  · rw [h'.diagnostics, h.diagnostics, Analysis.diagnostics_append, List.append_assoc]
  · rw [h'.types, h.types, Analysis.types_append, List.append_assoc]

theorem Adds.add (s : Analyzer) (a : Analysis) : Adds s a (s.add a) := ⟨⟨rfl, rfl, rfl⟩, fun _ => rfl⟩

theorem Adds.trans (h : Adds s a s') (h' : Adds s' a' s'') : Adds s (a ++ a') s'' := by
  refine ⟨h.toGoes.trans h'.toGoes, fun hn => ?_⟩
  have hfirst := h.declared hn.left
  have hkeys : s'.result.keys = s.result.keys ++ a.keys := by
    rw [Analysis.keys, hfirst, List.map_append]
    rfl
  rw [h'.declared (hn.right hkeys), hfirst, Analysis.declared_append, List.append_assoc]

theorem Adds.result (h : Adds s a s') (hfresh : s.result.Fresh a) : s'.result = s.result ++ a := by
  rw [Analysis.mk.injEq]
  exact ⟨h.diagnostics, h.types, h.declared hfresh⟩

namespace Steps

theorem add (s : Analyzer) (a : Analysis) : Steps [] s a (s.add a) :=
  ⟨⟨rfl, rfl, rfl⟩, rfl, rfl, fun _ _ _ _ _ => by rw [Analysis.extend_nil]; rfl⟩

theorem refl (s : Analyzer) : Steps [] s ∅ s := by
  have h := add s ∅
  rwa [Analyzer.add, Analysis.append_empty] at h

/-- A part that opens and closes a frame of its own. -/
theorem of_adds (h : Adds s a s') (hscopes : s'.scopes = s.scopes) (hret : s'.ret = s.ret) :
    Steps [] s a s' :=
  ⟨h.toGoes, congrArg Scope.pop hscopes, hret,
    fun _ _ _ _ hn => by rw [Analysis.extend_nil, h.declared hn]⟩

theorem trans (h : Steps own s a s') (h' : Steps own' s' a' s'') :
    Steps (own ++ own') s (a ++ a') s'' := by
  refine ⟨h.toGoes.trans h'.toGoes, h'.frames.trans h.frames, h'.ret.trans h.ret,
    fun block rest hblocks hm hn => ?_⟩
  have hfirst := h.declared block rest hblocks hm hn.left
  have hkeys : s'.result.keys = s.result.keys ++ a.keys := by
    rw [Analysis.keys, hfirst, List.map_append, Analysis.map_fst_extend]
    rfl
  have hnew : block ∉ a.keys := fun ha => hn.left.new block ha hm
  rw [h'.declared block rest (h.blocks.trans hblocks) (hkeys ▸ List.mem_append_left _ hm)
    (hn.right hkeys), hfirst, Analysis.extend_append, Analysis.extend_extend,
    Analysis.extend_of_notMem hnew, Analysis.declared_append, List.append_assoc]

/-- A declaration is listed, and its name is bound. -/
theorem declare (s : Analyzer) (decl : Nat) (name : String) (b : Binding) :
    Steps [decl] s ∅ ((s.declare decl).define name b) := by
  have hpop : (s.scopes.define name b).pop = s.scopes.pop := by
    unfold Scope.define Scope.pop
    cases s.scopes.frames <;> rfl
  cases hblocks : s.blocks with
  | nil =>
    rw [Analyzer.declare, hblocks]
    refine ⟨⟨rfl, (List.append_nil _).symm, (List.append_nil _).symm⟩, hpop, rfl, ?_⟩
    intro block rest h
    rw [hblocks] at h
    cases h
  | cons block rest =>
    rw [Analyzer.declare, hblocks]
    refine ⟨⟨hblocks.symm, ?_, ?_⟩, hpop, rfl, fun block' rest' h hm _ => ?_⟩
    · exact (s.result.diagnostics_withBlock block).trans (List.append_nil _).symm
    · exact (s.result.types_withBlock block).trans (List.append_nil _).symm
    · cases hblocks.symm.trans h
      have hold : s.result.withBlock block = s.result := if_pos (lookup_isSome_iff_mem.mpr hm)
      change Analysis.extend block [decl] (s.result.withBlock block).declared = _ ++ []
      rw [hold, List.append_nil]

/-- The statements of a block list their declarations for the block. -/
theorem block {id : Nat} (h : Steps own (s.enter id) a s') : Adds s (.declares id own ++ a) s'.leave := by
  refine ⟨⟨congrArg List.tail h.blocks, ?_, ?_⟩, fun hn => ?_⟩
  · exact h.diagnostics.trans (congrArg (· ++ a.diagnostics) (s.result.diagnostics_withBlock id))
  · exact h.types.trans (congrArg (· ++ a.types) (s.result.types_withBlock id))
  · have hnew : id ∉ s.result.keys := hn.new id List.mem_cons_self
    have henter : (s.enter id).result.declared = s.result.declared ++ [(id, [])] :=
      congrArg Analysis.declared (if_neg (mt lookup_isSome_iff_mem.mp hnew))
    have hkeys : (s.enter id).result.keys = s.result.keys ++ [id] := by
      rw [Analysis.keys, henter, List.map_append]
      rfl
    refine (h.declared id s.blocks rfl (by simp [hkeys]) (hn.right hkeys)).trans ?_
    rw [henter, Analysis.extend_append, Analysis.extend_of_notMem hnew, List.append_assoc]
    simp [Analysis.extend, Analysis.declares]

end Steps

mutual

/-- Checking a statement adds what is found in it, and goes on in the scope behind it. -/
theorem steps_checkStmt (symbols : Symbols) (stmt : Stmt) (s : Analyzer) :
    Steps (declarations [stmt]) s (Typing.checkStmt symbols s.ret s.scopes stmt).2
        (checkStmt symbols stmt s) ∧
      (checkStmt symbols stmt s).scopes = (Typing.checkStmt symbols s.ret s.scopes stmt).1 := by
  cases stmt with
  | declare d =>
    rw [checkStmt, Typing.checkStmt]
    generalize inferOption symbols s.scopes d.init = found
    obtain ⟨init, a⟩ := found
    have h := (Steps.add s (conclude d.node a (declVerdict symbols d init)).2).trans
      (.declare _ d.node.id d.name ⟨(declVerdict symbols d init).ty, d.isMutable, false⟩)
    rw [Analysis.append_empty] at h
    refine ⟨h, ?_⟩
    change ((s.add _).declare d.node.id).scopes.define _ _ = _
    unfold Analyzer.declare
    split <;> rfl
  | assign span name value => exact ⟨.add .., rfl⟩
  | branch span cond t e =>
    rw [checkStmt, Typing.checkStmt]
    generalize infer symbols s.scopes cond = found
    obtain ⟨ty, a⟩ := found
    have h := Steps.add s (a ++ .reports (reportsAt cond.span (conditionIssues ty)))
    obtain ⟨ht, hscopes⟩ := steps_nested symbols t (s.add (a ++ .reports _))
    cases e with
    | none => exact ⟨h.trans ht, hscopes⟩
    | some e =>
      obtain ⟨he, hscopes'⟩ := steps_nested symbols e (checkBlock symbols t (s.add _).pushScope).popScope
      rw [hscopes, ht.ret] at he
      exact ⟨(h.trans ht).trans he, hscopes'.trans hscopes⟩
  | ret span value => exact ⟨.add .., rfl⟩
  | expr e => exact ⟨.add .., rfl⟩

theorem steps_checkStmts (symbols : Symbols) (stmts : List Stmt) (s : Analyzer) :
    Steps (declarations stmts) s (Typing.checkStmts symbols s.ret s.scopes stmts)
      (checkStmts symbols stmts s) := by
  cases stmts with
  | nil => exact .refl s
  | cons stmt rest =>
    obtain ⟨h, hscope⟩ := steps_checkStmt symbols stmt s
    have hrest := steps_checkStmts symbols rest (checkStmt symbols stmt s)
    rw [h.ret, hscope] at hrest
    have hcons : declarations (stmt :: rest) = declarations [stmt] ++ declarations rest :=
      List.filterMap_append (l := [stmt])
    rw [hcons]
    exact h.trans hrest

/-- Checking a block adds what is found in it. -/
theorem adds_checkBlock (symbols : Symbols) (b : Block) (s : Analyzer) :
    Adds s (Typing.checkBlock symbols s.ret s.scopes b) (checkBlock symbols b s) ∧
      (checkBlock symbols b s).scopes.pop = s.scopes.pop ∧ (checkBlock symbols b s).ret = s.ret := by
  cases b with
  | mk n stmts =>
    have h := steps_checkStmts symbols stmts (s.enter n.id)
    exact ⟨h.block, h.frames, h.ret⟩

/-- Checking a branch adds what is found in it, and goes on in the same scope. -/
theorem steps_nested (symbols : Symbols) (b : Block) (s : Analyzer) :
    Steps [] s (Typing.checkBlock symbols s.ret s.scopes.push b)
        (checkBlock symbols b s.pushScope).popScope ∧
      (checkBlock symbols b s.pushScope).popScope.scopes = s.scopes := by
  cases b with
  | mk n stmts =>
    have h := steps_checkStmts symbols stmts (s.pushScope.enter n.id)
    exact ⟨.of_adds ⟨⟨h.block.blocks, h.block.diagnostics, h.block.types⟩, h.block.declared⟩
      h.frames h.ret, h.frames⟩

end

/-- Checking a function adds what is found in it, whatever state the checker is in. -/
theorem adds_checkFunction (symbols : Symbols) (f : FnDef) (s : Analyzer) :
    Adds s (Typing.checkFunction symbols f) (checkFunction symbols f s) := by
  have h := (Adds.add { s with scopes := (openScope symbols f.toFnHeader).1, ret := f.ret }
    (.reports (openScope symbols f.toFnHeader).2)).trans (adds_checkBlock symbols f.body _).1
  exact ⟨⟨h.blocks, h.diagnostics, h.types⟩, h.declared⟩

theorem adds_checkFunctions (symbols : Symbols) (seen : List String) (fs : List FnDef) (s : Analyzer) :
    Adds s (Typing.checkFunctions symbols seen fs) (checkFunctions symbols seen fs s) := by
  induction fs generalizing seen s with
  | nil =>
    have h := Adds.add s ∅
    rwa [add, Analysis.append_empty] at h
  | cons f rest ih =>
    have hf := adds_checkFunction symbols f s
    rw [Typing.checkFunctions, checkFunctions]
    split
    · exact hf.trans (ih _ _)
    · exact (hf.trans (.add _ _)).trans (ih _ _)

end Typing.Analyzer

namespace Program

theorem adds_analyze (p : Program) : Typing.Analyzer.Adds {} p.found { result := p.analyze } := by
  have h := ((Typing.Analyzer.Adds.add {} p.startAnalyzer.result).trans
    (Typing.Analyzer.adds_checkFunctions p.symbols [] p.functions p.startAnalyzer)).trans
    (.add _ (.reports (Typing.entryPointReports p.functions)))
  exact ⟨⟨rfl, h.diagnostics, h.types⟩, h.declared⟩

theorem diagnostics_analyze (p : Program) : p.analyze.diagnostics = p.found.diagnostics :=
  p.adds_analyze.diagnostics

/-- The result of checking is what is found in the parts, if no two blocks have one number. -/
theorem analyze_eq_found {p : Program} (h : p.found.keys.Nodup) : p.analyze = p.found :=
  p.adds_analyze.result ⟨h, fun _ _ => List.not_mem_nil⟩

end Program

end StructLang
