import Treeshake.Graph.Bind
/-!
Which statements a build keeps. A declaration in use includes its statement, and an included statement
uses every declaration it refers to; statements with effects on what is included are included too.
-/
set_option autoImplicit false

namespace Treeshake.Graph

def unused (g : Graph) : Nat := g.declarations.countP (!·.used)

def flagUsed (g : Graph) (id : Nat) : Graph := g.modifyDeclaration id fun d => { d with used := true }

theorem countP_modify_lt (ds : List Declaration) (id : Nat) (d : Declaration)
    (h : ds[id]? = some d) (hd : d.used = false) :
    (ds.modify id fun d => { d with used := true }).countP (!·.used) < ds.countP (!·.used) := by
  induction ds generalizing id with
  | nil => simp at h
  | cons e ds ih =>
    cases id with
    | zero =>
      obtain rfl : e = d := by simpa using h
      simp [List.modify, hd]
    | succ id =>
      have := ih id (by simpa using h)
      simp only [List.modify_succ_cons, List.countP_cons]
      omega

theorem unused_flagUsed {g : Graph} {id : Nat} {d : Declaration} (h : g.declaration? id = some d)
    (hd : d.used = false) : (g.flagUsed id).unused < g.unused :=
  countP_modify_lt g.declarations id d h hd

def keep (g : Graph) (r : StatementRef) : Graph × List Nat :=
  match g.statement? r with
  | none => (g, [])
  | some s =>
    if s.included then (g, [])
    else
      (g.modifyModule r.module fun m =>
        { m with statements := m.statements.modify r.index fun s => { s with included := true } },
        s.references.filterMap (·.declaration?))

theorem declarations_keep (g : Graph) (r : StatementRef) :
    (g.keep r).1.declarations = g.declarations := by
  unfold keep
  split
  · rfl
  · split <;> rfl

def keepOf (g : Graph) : Option StatementRef → Graph × List Nat
  | some r => g.keep r
  | none => (g, [])

theorem unused_keepOf (g : Graph) (r : Option StatementRef) : (g.keepOf r).1.unused = g.unused := by
  cases r with
  | none => rfl
  | some r => simp [keepOf, unused, declarations_keep]

def needs (d : Declaration) : List Nat :=
  (match d.kind with
    | .defaultValue underlying => underlying.toList
    | .object _ members _ => members.values
    | _ => []) ++ d.aliases

/-- Uses declarations and all that they need. Names of external modules need nothing. -/
def use (g : Graph) : List Nat → Graph
  | [] => g
  | id :: rest =>
    match _h : g.declaration? id with
    | none => g.use rest
    | some d =>
      if _hd : d.used || d.isExternal then g.use rest
      else
        let next := (g.flagUsed id).keepOf d.statement
        next.1.use (needs d ++ next.2 ++ rest)
termination_by ids => (g.unused, ids.length)
decreasing_by
  · exact Prod.Lex.right _ (by simp)
  · exact Prod.Lex.right _ (by simp)
  · refine Prod.Lex.left _ _ ?_
    rw [unused_keepOf]
    exact unused_flagUsed (by assumption) (by simp_all)

def markStatement (g : Graph) (r : StatementRef) : Graph :=
  let next := g.keep r
  next.1.use next.2

/-- Whether an assignment to a declaration can be seen: always outside the build's own bindings, and
otherwise if the binding's statement is included. -/
def isObservable (g : Graph) (id : Nat) : Bool :=
  match g.declaration? id with
  | none => true
  | some d => d.isExternal || d.isObject || d.statement.all g.isIncluded

def anyTarget (module : Nat) : List (Option String) → Build Bool
  | [] => return false
  | none :: _ => return true
  | some name :: rest => do
    match ← trace module name with
    | none => return true
    | some id => if (← get).isObservable id then return true else anyTarget module rest

/-- Whether a statement calls when the module loads, or assigns to something that can be seen. -/
def hasSideEffects (r : StatementRef) : Build Bool := do
  match (← get).statement? r with
  | none => return false
  | some s => if s.effects.calls then return true else anyTarget r.module s.effects.targets

def markIfEffective (r : StatementRef) : Build Bool := do
  if (← get).isIncluded r then return false
  if ← hasSideEffects r then
    modify (·.markStatement r)
    return true
  return false

def allStatements (g : Graph) : List StatementRef :=
  (g.modules.zipIdx.map fun (m, i) => (List.range m.statements.length).map fun j => ⟨i, j⟩).flatten

def markPass : Build Bool := do
  (← get).allStatements.foldlM (fun marked r => return (← markIfEffective r) || marked) false

/-- Passes until one marks nothing, and their number. Every other pass includes a statement, so there is
at most one pass more than there are statements. -/
def markPasses : Nat → Nat → Build Nat
  | 0, passes => return passes
  | fuel + 1, passes => do
    if ← markPass then markPasses fuel (passes + 1) else return passes + 1

def markExport (name : String) : Build Unit := do
  let id ← traceExport (.inside entry) name entry
  modify fun g =>
    let g := { g with entryExports := g.entryExports.insert name id }
    ((g.modifyDeclaration id fun d => { d with exported := true }).useAsValue id).use [id]

def mark : Build Nat := do
  ((← get).exportNames entry).forM markExport
  let count := (← get).allStatements.length
  markPasses (count + 1) 0

end Treeshake.Graph
