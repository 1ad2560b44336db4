import StructLang.Proofs.Lowering

/-!
# Calls in a body

The calls that stand in expressions and statements, in the order in which they are made, and the symbol
that each of them has to reach. `Reach` says of symbols that they are those of the given calls, one for
one, and `Calls` says so of the symbols that some code calls.
-/

namespace StructLang

/-- A call: the name that is called and the arguments. -/
structure CallSite where
  name : String
  args : List Expr

mutual

/-- The calls in an expression; those in the arguments of a call come before it. -/
def Expr.calls : Expr → List CallSite
  | .integer .. | .float .. | .bool .. | .text .. | .var .. => []
  | .unary _ _ e | .cast _ e _ | .access _ e _ => e.calls
  | .binary _ _ l r => l.calls ++ r.calls
  | .call _ name args => callsOf args ++ [⟨name, args⟩]
  | .construct _ _ args => callsOf args

def callsOf : List Expr → List CallSite
  | [] => []
  | e :: es => e.calls ++ callsOf es

end

mutual

def Stmt.calls : Stmt → List CallSite
  | .declare d => (d.init.map Expr.calls).getD []
  | .assign _ _ e | .expr e => e.calls
  | .branch _ cond t none => cond.calls ++ t.calls
  | .branch _ cond t (some e) => cond.calls ++ t.calls ++ e.calls
  | .ret _ e => (e.map Expr.calls).getD []

def callsOfStmts : List Stmt → List CallSite
  | [] => []
  | s :: rest => s.calls ++ callsOfStmts rest

def Block.calls : Block → List CallSite
  | .mk _ stmts => callsOfStmts stmts

end

namespace CallSite

/-- The declaration that a call means, by the types found for its arguments. -/
def callee? (types : TypeTable) (symbols : Symbols) (c : CallSite) : Option Callee := do
  (symbols.resolve c.name (← (types.typesOf c.args).toOption)).toOption

def symbol? (types : TypeTable) (symbols : Symbols) (c : CallSite) : Option String :=
  (c.callee? types symbols).map Callee.linkage

variable {c : CallSite}

theorem callee?_eq_some_iff : c.callee? types symbols = some callee ↔
    ∃ ts, types.typesOf c.args = .ok ts ∧ symbols.resolve c.name ts = .ok callee := by
  unfold callee?
  cases types.typesOf c.args with
  | error e => simp [Except.toOption]
  | ok ts =>
    cases h : symbols.resolve c.name ts with
    | error e | ok callee' => simp [Except.toOption, h]

theorem symbol?_of_callee (hts : types.typesOf c.args = .ok ts)
    (h : symbols.callee c.name ts = .ok callee) :
    c.symbol? types symbols = some callee.linkage := by
  have hresolve : symbols.resolve c.name ts = .ok callee := by
    unfold Symbols.callee at h
    cases hr : symbols.resolve c.name ts with
    | error e =>
      rw [hr] at h
      cases h
    | ok callee' =>
      rw [hr] at h
      exact congrArg _ (Except.ok.inj h)
  rw [symbol?, callee?_eq_some_iff.mpr ⟨ts, hts, hresolve⟩, Option.map_some]

end CallSite

/-- The symbols are those that the calls have to reach, in the same order. -/
def Reach (types : TypeTable) (symbols : Symbols) (called : List String) (sites : List CallSite) :
    Prop :=
  called.map some = sites.map (CallSite.symbol? types symbols)

namespace Reach

theorem nil : Reach types symbols [] [] := rfl

theorem single (h : c.symbol? types symbols = some name) : Reach types symbols [name] [c] := by
  rw [Reach, List.map_singleton, List.map_singleton, h]

theorem append (h : Reach types symbols called sites) (h' : Reach types symbols called' sites') :
    Reach types symbols (called ++ called') (sites ++ sites') := by
  rw [Reach, List.map_append, List.map_append, h, h']

theorem mem (h : Reach types symbols called sites) (hc : c ∈ sites)
    (hcallee : c.callee? types symbols = some callee) : callee.linkage ∈ called := by
  have hsymbol : c.symbol? types symbols = some callee.linkage := by
    rw [CallSite.symbol?, hcallee, Option.map_some]
  have hmem : some callee.linkage ∈ called.map some := by
    rw [h, ← hsymbol]
    exact List.mem_map_of_mem hc
  simpa using hmem

end Reach

/-- Code calls the symbols of the given calls; `target?` is the symbol that an instruction calls. -/
def Calls {ι : Type} (target? : ι → Option String) (types : TypeTable) (symbols : Symbols)
    (code : List ι) (sites : List CallSite) : Prop :=
  Reach types symbols (code.filterMap target?) sites

namespace Calls

variable {ι : Type}

theorem none (h : code.filterMap target? = []) : Calls target? types symbols code [] := by
  rw [Calls, h]
  exact .nil

theorem append (h : Calls target? types symbols code sites)
    (h' : Calls target? types symbols code' sites') :
    Calls target? types symbols (code ++ code') (sites ++ sites') := by
  rw [Calls, List.filterMap_append]
  exact Reach.append h h'

theorem appendNone (h : Calls target? types symbols code sites)
    (h' : Calls target? types symbols code' []) :
    Calls target? types symbols (code ++ code') sites := by
  simpa using h.append h'

theorem cons (h : target? i = Option.none) (h' : Calls target? types symbols code sites) :
    Calls target? types symbols (i :: code) sites := by
  rwa [Calls, List.filterMap_cons_none h]

end Calls

end StructLang
