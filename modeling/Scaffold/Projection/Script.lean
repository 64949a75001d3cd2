import Scaffold.Settings
import Scaffold.Projection.Union
import Scaffold.Projection.Container

/-!
The script of a declaration: the declared types its definition refers to, in the order in which
they are met, and the text of the definition or the fault that ends it. A script depends on the
declaration, the catalog and the settings, and on nothing that was projected before.
-/
namespace Scaffold.Projection

structure Script (α : Type) where
  refs : List String
  result : Except Fault α

namespace Script

def fail (f : Fault) : Script α := ⟨[], .error f⟩

def refer (name : String) : Script Unit := ⟨[name], .ok ()⟩

/-- What was met before a fault is kept. -/
protected def bind (s : Script α) (f : α → Script β) : Script β :=
  match s.result with
  | .error e => ⟨s.refs, .error e⟩
  | .ok a => ⟨s.refs ++ (f a).refs, (f a).result⟩

instance : Monad Script where
  pure a := ⟨[], .ok a⟩
  bind := Script.bind

instance : LawfulMonad Script := LawfulMonad.mk' Script
  (by
    intro α s
    obtain ⟨refs, result⟩ := s
    cases result <;> simp [Functor.map, Script.bind])
  (by intro α β a f; simp [bind, Script.bind, pure])
  (by
    intro α β γ s f g
    obtain ⟨refs, result⟩ := s
    cases result with
    | error e => rfl
    | ok a =>
      simp only [bind, Script.bind]
      cases (f a).result <;> simp)

end Script

/-- What a projection goes by. -/
structure Context where
  catalog : Catalog
  capabilities : Capabilities
  settings : Settings.TypeScript

def scalarText (s : Settings.TypeScript) : Scalar → String
  | .boolean => "boolean"
  | .char | .string => "string"
  | .long => if s.wideIntegers then "bigint" else "number"
  | .byte | .short | .int | .float | .double => "number"

/-- The text that the settings put in the place of a type. -/
def mapped? (s : Settings.TypeScript) (t : Ty) : Option String :=
  if t.isNullable then none else t.head?.bind s.mappings.get?

/-- The total size of the types in a catalog. -/
def volume (c : Catalog) : Nat :=
  c.decls.foldr
    (fun d n => Ty.sizeAll d.supertypes + Ty.sizeAll (d.properties.map Property.type) + n) 0

/-- A bound on how deep types unfold. A container stands for at most `volume` levels of each
container under it, and no chain of containers is longer than the catalog, unless a container
unfolds into itself. -/
def levels (c : Catalog) : Nat := Nat.pow (volume c + 2) (c.size + 3)

def index (key value : String) : String := "\x7b [key: " ++ key ++ "]: " ++ value ++ " \x7d"

/-- The text of a type. A named type is referred to only if neither a mapping nor a capability
gives its text. -/
def project (x : Context) (place : String) : Nat → Ty → Script Union
  | 0, t => .fail (.endlessType t.display place)
  | n + 1, t =>
    match mapped? x.settings t with
    | some text => pure (.single text)
    | none =>
      match t with
      | .nullable inner => do
        let u ← project x place n inner.nonNull
        pure (u.add x.settings.voidMarker)
      | .scalar s => pure (.single (scalarText x.settings s))
      | .param name => pure (.single name)
      | .array element => do
        let u ← project x place n element
        pure (.single (u.grouped ++ "[]"))
      | .named name args =>
        if x.capabilities.has name .top then pure (.single x.settings.topType)
        else if x.capabilities.has name .collection then
          match (carriedArgs x.catalog x.capabilities .collection name args)[0]? with
          | none => pure (.single (x.settings.topType ++ "[]"))
          | some element => do
            let u ← project x place n element
            pure (.single (u.grouped ++ "[]"))
        else if x.capabilities.has name .mapping then do
          let carried := carriedArgs x.catalog x.capabilities .mapping name args
          let key ←
            match carried[0]? with
            | none => pure "string"
            | some key => Union.render <$> project x place n key
          let value ←
            match carried[1]? with
            | none => pure x.settings.topType
            | some value => Union.grouped <$> project x place n value
          pure (.single (index key value))
        else if x.catalog.contains name then do
          Script.refer name
          let texts ← args.mapM fun a => Union.render <$> project x place n a
          let text := Dotted.simple name
          pure (.single
            (if args.isEmpty then text else text ++ "<" ++ ", ".intercalate texts ++ ">"))
        else .fail (.unresolvableType t.display place)

/-- An interface cannot extend an array or index type, so containers are left out as well. -/
def isExtended (x : Context) (t : Ty) : Bool :=
  match t.head? with
  | none => true
  | some name =>
    name ∉ x.settings.ignoredSupertypes && !x.capabilities.has name .collection &&
      !x.capabilities.has name .mapping

def enumText (d : Decl) : String :=
  "type " ++ d.simpleName ++ " = " ++
    (if d.enumEntries.isEmpty then "never"
    else " | ".intercalate (d.enumEntries.map fun e => "\"" ++ e ++ "\"")) ++ ";"

def extendsText (x : Context) (d : Decl) : Script String := do
  let place := "supertypes of " ++ d.name
  let texts ← (d.supertypes.filter (isExtended x)).mapM fun t =>
    Union.render <$> project x place (levels x.catalog) t
  pure (if texts.isEmpty then "" else " extends " ++ ", ".intercalate texts)

def propertyLine (x : Context) (d : Decl) (p : Property) : Script String := do
  let place := "property " ++ p.name ++ " of " ++ d.name
  let u ← project x place (levels x.catalog) p.type
  pure ("    " ++ p.name ++ ": " ++ u.render ++ ";")

def interfaceText (x : Context) (d : Decl) : Script String := do
  let params :=
    if d.typeParams.isEmpty then "" else "<" ++ ", ".intercalate d.typeParams ++ ">"
  let bases ← extendsText x d
  let header := "interface " ++ d.simpleName ++ params ++ bases
  let lines ← d.properties.mapM (propertyLine x d)
  pure
    (if lines.isEmpty then header ++ " \x7b\x7d"
    else "\n".intercalate ((header ++ " \x7b") :: lines ++ ["\x7d"]))

/-- The definition of a declaration. -/
def script (x : Context) (d : Decl) : Script String := do
  let body ← if d.kind = .enum then pure (enumText d) else interfaceText x d
  pure (x.settings.lead ++ body)

end Scaffold.Projection
