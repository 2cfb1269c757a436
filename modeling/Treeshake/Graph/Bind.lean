import Treeshake.Graph.Trace
/-!
References bound to declarations, across modules.
-/
set_option autoImplicit false

namespace Treeshake

structure LinkStats where
  references : Nat := 0
  bound : Nat := 0
  locals : Nat := 0
  globals : Nat := 0
  aliases : Nat := 0
  deriving DecidableEq, Repr

namespace LinkedModule

def bindStars (m : LinkedModule) : LinkedModule :=
  { m with stars := m.starSources.filterMap m.targets.get? }

/-- The name that the variable of a declaration merely copies: the only one outside the statement that
is read when it runs. -/
def copiedName? (m : LinkedModule) (d : Declaration) : Option String := do
  if d.kind != .binding then none
  let s ← m.statements[(← d.statement).index]?
  if !s.isVariable then none
  let root ← s.scope
  match s.references.filter fun r => r.immediate && !m.scopes.contains root r.name with
  | [single] => some single.name
  | _ => none

end LinkedModule

namespace Graph

def bindAlias (module : Nat) (count : Nat) (copy : String × String × Nat) : Build Nat := do
  let (name, copied, twin) := copy
  if name == copied then return count
  match ← trace module copied with
  | none => return count
  | some other =>
    let known := ((← get).declaration? other).any (·.aliases.contains twin)
    if other == twin || known then return count
    modify fun g => g.modifyDeclaration other fun d => { d with aliases := d.aliases ++ [twin] }
    return count + 1

def copies (g : Graph) (m : LinkedModule) : List (String × String × Nat) :=
  m.declarations.filterMap fun (name, id) => do
    return (name, ← m.copiedName? (← g.declaration? id), id)

def bindAliases (module count : Nat) : Build Nat := do
  let g ← get
  match g.modules[module]? with
  | none => return count
  | some m => (g.copies m).foldlM (bindAlias module) count

def useAsValue (g : Graph) (id : Nat) : Graph :=
  match g.declaration? id with
  | some { kind := .object module members false, .. } =>
    { g.modifyDeclaration id fun d => { d with kind := .object module members true } with
      objects := g.objects ++ [id] }
  | _ => g

/-- A reference bound to a declaration. An access to a member of a module becomes a reference to that
member; the declaration takes the name of the reference. -/
def bindTo (module : Nat) : List Access → Nat → Reference → Build Reference
  | accesses, id, r => do
    let g ← get
    let bound := { r with accesses, binding := .declared id }
    match (g.declaration? id).map Declaration.kind with
    | none => return bound
    | some .binding =>
      set (g.modifyDeclaration id fun d =>
        { d with name := r.name, reassigned := d.reassigned || r.reassigns })
      return bound
    | some (.defaultValue _) =>
      set (g.modifyDeclaration id fun d =>
        { d with name := if r.name == "default" then d.name else r.name })
      return bound
    | some (.external external name) =>
      if name == "default" || name == "*" then
        set (g.modifyExternal external (·.suggest r.name))
      return bound
    | some (.object exporter members _) =>
      match accesses with
      | [] =>
        set ((g.useAsValue id).modifyDeclaration id fun d => { d with name := r.name })
        return bound
      | a :: rest =>
        match members.get? a.name with
        | some member => bindTo module rest member { r with name := a.name, stop := a.stop }
        | none =>
          let code := (g.modules[module]?.map fun m => m.code).getD []
          throw (.missingMember a.name (g.moduleId exporter) (g.moduleId module)
            (Location.ofOffset code r.start))

def bindReference (module : Nat) (stats : LinkStats) (r : Reference) :
    Build (Reference × LinkStats) := do
  let stats := { stats with references := stats.references + 1 }
  match (← get).modules[module]? with
  | none => return (r, stats)
  | some m =>
    let found := m.scopes.find? r.scope r.name
    if found.any fun s => m.scopes.kind? s != some .statement then
      return ({ r with binding := .inner }, { stats with locals := stats.locals + 1 })
    let target ← if found.isSome then pure (m.declarations.get? r.name) else trace module r.name
    match target with
    | some id =>
      return (← bindTo module r.accesses id r, { stats with bound := stats.bound + 1 })
    | none =>
      modify fun g => { g with globals := addNew r.name g.globals }
      return ({ r with binding := .global }, { stats with globals := stats.globals + 1 })

def bindReferenceList (module : Nat) :
    LinkStats → List Reference → Build (List Reference × LinkStats)
  | stats, [] => return ([], stats)
  | stats, r :: rs => do
    let (r, stats) ← bindReference module stats r
    let (rs, stats) ← bindReferenceList module stats rs
    return (r :: rs, stats)

/-- The references of a statement. What a clause of a module other than the entry lists is no use. -/
def bindStatement (module : Nat) (stats : LinkStats) (index : Nat) : Build LinkStats := do
  match (← get).statement? ⟨module, index⟩ with
  | none => return stats
  | some s =>
    if s.kind == .exportClause && module != entry then return stats
    let (references, stats) ← bindReferenceList module stats s.references
    modify fun g => g.modifyModule module fun m =>
      { m with statements := m.statements.modify index fun s => { s with references } }
    return stats

def bindDefault (module : Nat) : Build Unit := do
  match (← get).modules[module]? with
  | none => return
  | some m =>
    match m.declarations.get? "default", (m.exports.get? "default").bind (·.identifier) with
    | some id, some identifier =>
      match ← trace module identifier with
      | some other =>
        if other != id then
          modify fun g => g.modifyDeclaration id fun d => { d with kind := .defaultValue (some other) }
      | none => return
    | _, _ => return

def bindReferences (stats : LinkStats) (module : Nat) : Build LinkStats := do
  bindDefault module
  let count := ((← get).modules[module]?.map fun m => m.statements.length).getD 0
  (List.range count).foldlM (bindStatement module) stats

/-- Binds every reference of every module: first star exports, then aliases, then the references. -/
def bind : Build LinkStats := do
  modify fun g => { g with modules := g.modules.map (·.bindStars) }
  let modules := List.range (← get).modules.length
  let aliases ← modules.foldlM (fun count module => bindAliases module count) 0
  modules.foldlM bindReferences { aliases }

end Graph

end Treeshake
