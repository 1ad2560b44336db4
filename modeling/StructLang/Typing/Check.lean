import StructLang.Typing.Infer

/-!
# Checking programs

Declarations, then one function after the other. The checker keeps the scopes, the open blocks and the
result type of the function at hand, and adds what it finds to its result.
-/

namespace StructLang

namespace Typing

/-- Reports at one place. -/
def reportsAt (span : Span) (issues : List Issue) : List Diagnostic :=
  issues.map fun i => i.report span

/-- A struct type has to name a struct of the program. -/
def declaredTypeIssues (symbols : Symbols) : Ty → List Issue
  | .struct name => if (symbols.struct? name).isNone then [.unknownStruct name] else []
  | _ => []

/-- The types that fields hold by value: the names of the structs among them. -/
def fieldStructs (d : StructDef) : List String := d.fields.filterMap fun f => f.ty.structName?

/-- Whether one of the pending structs holds the target by value, directly or through others. Each
step takes one struct, and a name is visited once, so as many steps as there are structs suffice. -/
def holds (symbols : Symbols) (target : String) :
    Nat → List String → List StructDef → Bool
  | 0, _, _ => false
  | _, _, [] => false
  | steps + 1, visited, d :: pending =>
    (fieldStructs d).contains target ||
      let fresh := ((fieldStructs d).filter fun name => !visited.contains name).eraseDups
      holds symbols target steps (fresh ++ visited) (fresh.filterMap symbols.struct? ++ pending)

/-- Whether a struct holds a value of its own type. -/
def holdsItself (symbols : Symbols) (d : StructDef) : Bool :=
  holds symbols d.name (symbols.structs.length + 1) [] [d]

/-- Reports on the fields that follow fields with the given names. -/
def fieldReports (symbols : Symbols) (struct : String) :
    List String → List TypedName → List Diagnostic
  | _, [] => []
  | seen, f :: rest =>
    reportsAt f.span ((if seen.contains f.name then [.duplicateField f.name struct] else [])
      ++ (if f.ty = .void then [.voidField f.name] else [])
      ++ declaredTypeIssues symbols f.ty)
    ++ fieldReports symbols struct (f.name :: seen) rest

/-- Reports on one struct. -/
def structReports (symbols : Symbols) (d : StructDef) : List Diagnostic :=
  fieldReports symbols d.name [] d.fields
    ++ if holdsItself symbols d then reportsAt d.span [.recursiveStruct d.name] else []

/-- Reports on the structs that follow structs with the given names. -/
def structsReports (symbols : Symbols) : List String → List StructDef → List Diagnostic
  | _, [] => []
  | seen, d :: rest =>
    (if seen.contains d.name then reportsAt d.span [.duplicateStruct d.name]
      else structReports symbols d)
    ++ structsReports symbols (d.name :: seen) rest

/-- Reports on a foreign declaration. -/
def foreignReports (symbols : Symbols) (d : ForeignDecl) : List Diagnostic :=
  d.params.flatMap (fun p => reportsAt p.span (declaredTypeIssues symbols p.ty))
    ++ reportsAt d.span (declaredTypeIssues symbols d.ret)

/-- The type of a declared variable, given the type of its initial value if it has one. -/
def declVerdict (symbols : Symbols) (d : VarDecl) (init : Option Ty) : Verdict :=
  let stated : Verdict := match d.annotation, init with
    | some ty, init =>
      match declaredTypeIssues symbols ty, init with
      | i :: is, _ => ⟨.error, i :: is⟩
      | [], some found =>
        if found ≠ .error && found ≠ ty then ⟨ty, [.initMismatch d.name ty found]⟩ else .accept ty
      | [], none => .accept ty
    | none, some found => .accept found
    | none, none => .accept .unknown
  if stated.ty = .void || stated.ty = .unknown then
    ⟨.error, stated.issues ++ [.untypedVariable d.name]⟩
  else stated

/-- What is wrong with assigning a value of a type to a name. -/
def assignIssues (scope : Scope Binding) (name : String) (value : Ty) : List Issue :=
  match scope.lookup? name with
  | none => [.undefinedVariable name]
  | some target =>
    (if target.ty ≠ .error && value ≠ .error && target.ty ≠ value then
      [.assignMismatch name target.ty value] else [])
    ++ (if target.isReceiver then [.assignToReceiver]
      else if !target.isMutable then [.assignToImmutable name] else [])

/-- What is wrong with returning a value of a type. -/
def returnIssues (expected found : Ty) : List Issue :=
  if found ≠ .error && found ≠ expected then [.returnMismatch expected found] else []

/-- What is wrong with a condition of a type. -/
def conditionIssues (found : Ty) : List Issue :=
  if found ≠ .bool && found ≠ .error then [.conditionNotBool found] else []

/-- The type and the findings of a part that may be missing. -/
def inferOption (symbols : Symbols) (scope : Scope Binding) :
    Option Expr → Option Ty × Analysis
  | none => (none, ∅)
  | some e =>
    let (t, a) := infer symbols scope e
    (some t, a)

/-- What the checker keeps while it goes through the functions of a program. -/
structure Analyzer where
  scopes : Scope Binding := .empty
  /-- The numbers of the blocks that are open, the innermost first. -/
  blocks : List Nat := []
  /-- The result type of the function that is checked. -/
  ret : Ty := .void
  result : Analysis := ∅

namespace Analyzer

/-- Add findings. -/
def add (s : Analyzer) (a : Analysis) : Analyzer := { s with result := s.result ++ a }

/-- Open a block. -/
def enter (s : Analyzer) (block : Nat) : Analyzer :=
  { s with blocks := block :: s.blocks, result := s.result.withBlock block }

/-- Close the innermost open block. -/
def leave (s : Analyzer) : Analyzer := { s with blocks := s.blocks.tail }

/-- List a declaration for the innermost open block. -/
def declare (s : Analyzer) (decl : Nat) : Analyzer :=
  match s.blocks with
  | [] => s
  | block :: _ => { s with result := s.result.declare block decl }

/-- Bind a name in the innermost frame. -/
def define (s : Analyzer) (name : String) (binding : Binding) : Analyzer :=
  { s with scopes := s.scopes.define name binding }

/-- Open a frame. -/
def pushScope (s : Analyzer) : Analyzer := { s with scopes := s.scopes.push }

/-- Close the innermost frame. -/
def popScope (s : Analyzer) : Analyzer := { s with scopes := s.scopes.pop }

mutual

/-- Check a statement. -/
def checkStmt (symbols : Symbols) : Stmt → Analyzer → Analyzer
  | .declare d, s =>
    let (init, a) := inferOption symbols s.scopes d.init
    let verdict := declVerdict symbols d init
    ((s.add (conclude d.node a verdict).2).declare d.node.id).define d.name
      ⟨verdict.ty, d.isMutable, false⟩
  | .assign span name value, s =>
    let (t, a) := infer symbols s.scopes value
    s.add (a ++ .reports (reportsAt span (assignIssues s.scopes name t)))
  | .branch _ cond thenBlock elseBlock, s =>
    let (t, a) := infer symbols s.scopes cond
    let s := s.add (a ++ .reports (reportsAt cond.span (conditionIssues t)))
    let s := (checkBlock symbols thenBlock s.pushScope).popScope
    match elseBlock with
    | some e => (checkBlock symbols e s.pushScope).popScope
    | none => s
  | .ret span value, s =>
    let (t, a) := inferOption symbols s.scopes value
    s.add (a ++ .reports (reportsAt span (returnIssues s.ret (t.getD .void))))
  | .expr e, s => s.add (infer symbols s.scopes e).2

/-- Check statements in order. -/
def checkStmts (symbols : Symbols) : List Stmt → Analyzer → Analyzer
  | [], s => s
  | stmt :: rest, s => checkStmts symbols rest (checkStmt symbols stmt s)

/-- Check a block in a scope whose innermost frame is its own. -/
def checkBlock (symbols : Symbols) : Block → Analyzer → Analyzer
  | .mk node stmts, s => (checkStmts symbols stmts (s.enter node.id)).leave

end

end Analyzer

/-- Bind the receiver, unless its type names no struct. -/
def bindReceiver (symbols : Symbols) (scope : Scope Binding) (f : FnHeader) :
    Scope Binding × List Diagnostic :=
  match f.receiver with
  | none => (scope, [])
  | some ty =>
    match declaredTypeIssues symbols ty with
    | [] => (scope.define "self" ⟨ty, false, true⟩, [])
    | issues => (scope, reportsAt f.span issues)

/-- Bind the parameters that follow parameters with the given names. -/
def bindParams (symbols : Symbols) :
    List String → Scope Binding → List TypedName → Scope Binding × List Diagnostic
  | _, scope, [] => (scope, [])
  | seen, scope, p :: rest =>
    let unknown := declaredTypeIssues symbols p.ty
    let ty := if unknown.isEmpty then p.ty else .error
    let reports := reportsAt p.span
      ((if seen.contains p.name then [.duplicateParameter p.name] else []) ++ unknown)
    let (inner, others) :=
      bindParams symbols (p.name :: seen) (scope.define p.name ⟨ty, false, false⟩) rest
    (inner, reports ++ others)

namespace Analyzer

/-- Check a function, whatever was checked before. -/
def checkFunction (symbols : Symbols) (f : FnDef) (s : Analyzer) : Analyzer :=
  let s := { s with scopes := s.scopes.clear, ret := f.ret }.pushScope
  let (scope, onReceiver) := bindReceiver symbols s.scopes f.toFnHeader
  let (scope, onParams) := bindParams symbols [] scope f.params
  let s := { s with scopes := scope }.add (.reports
    (reportsAt f.span (declaredTypeIssues symbols f.ret) ++ onReceiver ++ onParams))
  (checkBlock symbols f.body s).popScope

/-- Check the functions that follow functions with the given linkage names; no two functions besides
the entry point have one linkage name. -/
def checkFunctions (symbols : Symbols) : List String → List FnDef → Analyzer → Analyzer
  | _, [], s => s
  | seen, f :: rest, s =>
    if f.name = entryPoint then checkFunctions symbols seen rest (checkFunction symbols f s)
    else
      let issues : List Issue :=
        if seen.contains f.linkage then [.duplicateFunction f.name] else []
      checkFunctions symbols (f.linkage :: seen) rest
        ((checkFunction symbols f s).add (.reports (reportsAt f.span issues)))

end Analyzer

/-- A program has exactly one entry point. -/
def entryPointReports (functions : List FnDef) : List Diagnostic :=
  match functions.filter fun f => f.name == entryPoint with
  | [] => [⟨.error, Issue.missingEntryPoint.message, none⟩]
  | _ :: extra => extra.flatMap fun f => reportsAt f.span [.duplicateEntryPoint]

end Typing

namespace Program

/-- The checker after the declarations, before the first function. -/
def startAnalyzer (p : Program) : Typing.Analyzer :=
  { result := .reports (Typing.structsReports p.symbols [] p.structs)
      ++ .reports (p.foreigns.flatMap (Typing.foreignReports p.symbols)) }

/-- Check a whole program. -/
def analyze (p : Program) : Analysis :=
  (Typing.Analyzer.checkFunctions p.symbols [] p.functions p.startAnalyzer).result
    ++ .reports (Typing.entryPointReports p.functions)

end Program

end StructLang
