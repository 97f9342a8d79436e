import SheetPolicy.Toml.Value

/-!
Options of a rule: a primary value and named secondary ones. Layers of options are laid over one
another.
-/

namespace SheetPolicy

structure Options where
  primary : Option Toml := none
  secondary : Option Toml.Table := none

namespace Options

/-- Lays `top` over `base`: what `top` sets wins, key by key. -/
def layeredOver (top base : Options) : Options where
  primary := top.primary <|> base.primary
  secondary :=
    match base.secondary, top.secondary with
    | some b, some t => some (t.foldl (fun table entry => table.insert entry.1 entry.2) b)
    | b, t => t <|> b

def isEmpty (o : Options) : Bool :=
  o.primary.isNone && (o.secondary.getD []).isEmpty

/-- The primary value, if it is a string. -/
def primaryText? (o : Options) : Option String :=
  o.primary.bind Toml.asString?

def secondary? (o : Options) (key : String) : Option Toml :=
  o.secondary.bind fun table => table.get? key

end Options

end SheetPolicy
