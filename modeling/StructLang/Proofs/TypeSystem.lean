import StructLang.Proofs.Containment

/-!
# The type system

The typing rules as they are meant, apart from how they are checked: there are no frames, no reports
and no mark for a failed type. A context lists variables from the oldest to the latest, and the latest
variable of a name counts. Each judgement lists the nodes of its derivation with their types, those of
the parts first.
-/

namespace StructLang

/-! ## What names mean -/

/-- A variable of a context. -/
structure Variable where
  name : String
  ty : Ty
  /-- Stands for the caller's variable. -/
  isReceiver : Bool

def Binds (Γ : List Variable) (name : String) (v : Variable) : Prop :=
  ∃ older newer, Γ = older ++ v :: newer ∧ v.name = name ∧ ∀ w ∈ newer, w.name ≠ name

def IsFirst {α : Type} (P : α → Prop) (xs : List α) (x : α) : Prop :=
  ∃ before after, xs = before ++ x :: after ∧ P x ∧ ∀ y ∈ before, ¬P y

/-- The declaration that a call means: the first foreign one that fits, and only if there is none the
first function that fits. -/
inductive Symbols.Calls (s : Symbols) (name : String) (args : List Ty) : Callee → Prop where
  | foreign {d}
      (h : IsFirst (fun d => d.name = name ∧ d.params.map TypedName.ty = args) s.foreigns d) :
      Calls s name args (.foreign d)
  | user {g}
      (hno : ∀ d ∈ s.foreigns, ¬(d.name = name ∧ d.params.map TypedName.ty = args))
      (h : IsFirst (fun g => g.name = name ∧ g.signature = args) s.functions g) :
      Calls s name args (.user g)

def Ty.Named (structs : List StructDef) (ty : Ty) : Prop :=
  ∀ name, ty = .struct name → ∃ d ∈ structs, d.name = name

def Contains (structs : List StructDef) (outer inner : String) : Prop :=
  ∃ d ∈ structs, d.name = outer ∧ ∃ g ∈ d.fields, g.ty = .struct inner

/-! ## What operators take -/

def UnaryOp.Takes (ty : Ty) : UnaryOp → Prop
  | .not => ty = .bool
  | .neg => ty.isNumber = true
  | .bitNot => ty.isInt = true

def BinaryOp.Takes (ty : Ty) : BinaryOp → Prop
  | .eq | .ne => ty = .bool ∨ ty.isNumber = true
  | .lt | .le | .gt | .ge | .add | .sub | .mul | .div => ty.isNumber = true
  | .mod | .bitAnd | .bitOr | .bitXor | .shl | .shr => ty.isInt = true

def BinaryOp.result (ty : Ty) : BinaryOp → Ty
  | .eq | .ne | .lt | .le | .gt | .ge => .bool
  | .add | .sub | .mul | .div | .mod | .bitAnd | .bitOr | .bitXor | .shl | .shr => ty

/-- The casts of the language. -/
inductive Ty.Casts : Ty → Ty → Prop where
  | same {ty} : Casts ty ty
  | numbers {source target} (hs : source.isNumber = true) (ht : target.isNumber = true) :
      Casts source target
  | ofBool {target} (ht : target.isInt = true) : Casts .bool target
  | toBool {source} (hs : source.isInt = true) : Casts source .bool

/-! ## The judgements -/

mutual

/-- An expression has a type. -/
inductive HasType (s : Symbols) (Γ : List Variable) : Expr → Ty → List (Nat × Ty) → Prop where
  | i32 {n value} : HasType s Γ (.integer n value false) .i32 [(n.id, .i32)]
  | i64 {n value} : HasType s Γ (.integer n value true) .i64 [(n.id, .i64)]
  | f32 {n value} : HasType s Γ (.float n value true) .f32 [(n.id, .f32)]
  | f64 {n value} : HasType s Γ (.float n value false) .f64 [(n.id, .f64)]
  | bool {n value} : HasType s Γ (.bool n value) .bool [(n.id, .bool)]
  | text {n value} : HasType s Γ (.text n value) .string [(n.id, .string)]
  | var {n name v} (h : Binds Γ name v) : HasType s Γ (.var n name) v.ty [(n.id, v.ty)]
  | unary {n op e ty nodes} (he : HasType s Γ e ty nodes) (hop : op.Takes ty) :
      HasType s Γ (.unary n op e) ty (nodes ++ [(n.id, ty)])
  | binary {n op l r ty nodes nodes'} (hl : HasType s Γ l ty nodes) (hr : HasType s Γ r ty nodes')
      (hop : op.Takes ty) :
      HasType s Γ (.binary n op l r) (op.result ty) (nodes ++ nodes' ++ [(n.id, op.result ty)])
  | cast {n e source target nodes} (he : HasType s Γ e source nodes) (hc : source.Casts target) :
      HasType s Γ (.cast n e target) target (nodes ++ [(n.id, target)])
  | call {n name args tys callee nodes} (hargs : HaveTypes s Γ args tys nodes)
      (hc : s.Calls name tys callee) :
      HasType s Γ (.call n name args) callee.ret (nodes ++ [(n.id, callee.ret)])
  | construct {n args d nodes} (hd : d ∈ s.structs)
      (hargs : HaveTypes s Γ args (d.fields.map TypedName.ty) nodes) :
      HasType s Γ (.construct n d.name args) (.struct d.name) (nodes ++ [(n.id, .struct d.name)])
  | access {n e d g nodes} (hd : d ∈ s.structs) (hg : g ∈ d.fields)
      (he : HasType s Γ e (.struct d.name) nodes) :
      HasType s Γ (.access n e g.name) g.ty (nodes ++ [(n.id, g.ty)])

inductive HaveTypes (s : Symbols) (Γ : List Variable) :
    List Expr → List Ty → List (Nat × Ty) → Prop where
  | nil : HaveTypes s Γ [] [] []
  | cons {e es ty tys nodes nodes'} (he : HasType s Γ e ty nodes)
      (hes : HaveTypes s Γ es tys nodes') :
      HaveTypes s Γ (e :: es) (ty :: tys) (nodes ++ nodes')

end

mutual

/-- A statement of a function with a result type is derivable in a context and leaves a context. -/
inductive StmtDerivable (s : Symbols) (ret : Ty) :
    List Variable → Stmt → List Variable → List (Nat × Ty) → Prop where
  | infer {Γ n name m e ty nodes} (he : HasType s Γ e ty nodes) (hvoid : ty ≠ .void) :
      StmtDerivable s ret Γ (.declare ⟨n, name, none, m, some e⟩) (Γ ++ [⟨name, ty, false⟩])
        (nodes ++ [(n.id, ty)])
  | annotate {Γ n name m ty} (hty : ty.Named s.structs) (hvoid : ty ≠ .void) :
      StmtDerivable s ret Γ (.declare ⟨n, name, some ty, m, none⟩) (Γ ++ [⟨name, ty, false⟩])
        [(n.id, ty)]
  | check {Γ n name m e ty nodes} (hty : ty.Named s.structs) (he : HasType s Γ e ty nodes)
      (hvoid : ty ≠ .void) :
      StmtDerivable s ret Γ (.declare ⟨n, name, some ty, m, some e⟩) (Γ ++ [⟨name, ty, false⟩])
        (nodes ++ [(n.id, ty)])
  | assign {Γ span name e v nodes} (hv : Binds Γ name v) (hrec : v.isReceiver = false)
      (he : HasType s Γ e v.ty nodes) : StmtDerivable s ret Γ (.assign span name e) Γ nodes
  | branch {Γ span c b nodes nodes'} (hc : HasType s Γ c .bool nodes)
      (hb : BlockDerivable s ret Γ b nodes') :
      StmtDerivable s ret Γ (.branch span c b none) Γ (nodes ++ nodes')
  | branchElse {Γ span c b b' nodes nodes' nodes''} (hc : HasType s Γ c .bool nodes)
      (hb : BlockDerivable s ret Γ b nodes') (hb' : BlockDerivable s ret Γ b' nodes'') :
      StmtDerivable s ret Γ (.branch span c b (some b')) Γ (nodes ++ nodes' ++ nodes'')
  | retNone {Γ span} (h : ret = .void) : StmtDerivable s ret Γ (.ret span none) Γ []
  | ret {Γ span e nodes} (he : HasType s Γ e ret nodes) :
      StmtDerivable s ret Γ (.ret span (some e)) Γ nodes
  | expr {Γ e ty nodes} (he : HasType s Γ e ty nodes) : StmtDerivable s ret Γ (.expr e) Γ nodes

inductive StmtsDerivable (s : Symbols) (ret : Ty) :
    List Variable → List Stmt → List (Nat × Ty) → Prop where
  | nil {Γ} : StmtsDerivable s ret Γ [] []
  | cons {Γ Γ' stmt rest nodes nodes'} (hs : StmtDerivable s ret Γ stmt Γ' nodes)
      (hrest : StmtsDerivable s ret Γ' rest nodes') :
      StmtsDerivable s ret Γ (stmt :: rest) (nodes ++ nodes')

/-- A block is derivable; what it declares ends with it. -/
inductive BlockDerivable (s : Symbols) (ret : Ty) :
    List Variable → Block → List (Nat × Ty) → Prop where
  | mk {Γ n stmts nodes} (h : StmtsDerivable s ret Γ stmts nodes) :
      BlockDerivable s ret Γ (.mk n stmts) nodes

end

/-- The context in which the body of a function starts: the receiver, then the parameters. -/
def FnHeader.context (g : FnHeader) : List Variable :=
  g.receiver.toList.map (⟨"self", ·, true⟩) ++ g.params.map fun q => ⟨q.name, q.ty, false⟩

/-- A program that the language admits. -/
structure Program.WellFormed (p : Program) : Prop where
  structs_nodup : (p.structs.map StructDef.name).Nodup
  fields_nodup : ∀ d ∈ p.structs, (d.fields.map TypedName.name).Nodup
  fields_ne_void : ∀ d ∈ p.structs, ∀ g ∈ d.fields, g.ty ≠ .void
  fields_named : ∀ d ∈ p.structs, ∀ g ∈ d.fields, g.ty.Named p.structs
  foreigns_named : ∀ d ∈ p.foreigns, ∀ ty ∈ d.params.map TypedName.ty ++ [d.ret], ty.Named p.structs
  functions_named : ∀ f ∈ p.functions, ∀ ty ∈ f.types, ty.Named p.structs
  acyclic : ∀ name, ¬Relation.TransGen (Contains p.structs) name name
  entry : (p.functions.countP fun f => f.name == entryPoint) = 1
  linkage_nodup :
    ((p.functions.filter fun f => f.name != entryPoint).map fun f => f.linkage).Nodup
  params_nodup : ∀ f ∈ p.functions, (f.params.map TypedName.name).Nodup
  bodies : ∀ f ∈ p.functions, ∃ nodes, BlockDerivable p.symbols f.ret f.context f.body nodes

end StructLang
