/-!
# Metadata of recipes

The variables that the build tool reads from a recipe, and the functions that it calls in a fixed
order.  Checksums are generated and appended to a recipe, so they belong behind its functions; all
other metadata belongs in front of them.
-/

namespace RecipeLint

inductive Placement where
  | before
  | after
deriving DecidableEq, Repr

def Placement.text : Placement → String
  | .before => "before"
  | .after => "after"

structure Metadata where
  name : String
  placement : Placement
  required : Bool
deriving DecidableEq, Repr

namespace Metadata

def obligatory : List String :=
  ["pkgname", "pkgver", "pkgrel", "pkgdesc", "url", "arch", "license"]

def optional : List String :=
  ["depends", "depends_dev", "makedepends", "checkdepends", "install", "install_if", "subpackages",
    "source", "options", "patch_args", "builddir", "replaces", "replaces_priority", "provides",
    "provider_priority", "pkgusers", "pkggroups", "triggers"]

def checksums : List String :=
  ["md5sums", "sha256sums", "sha512sums"]

def all : List Metadata :=
  obligatory.map (⟨·, .before, true⟩) ++ optional.map (⟨·, .before, false⟩) ++
    checksums.map (⟨·, .after, false⟩)

def of? (name : String) : Option Metadata :=
  all.find? (·.name = name)

def requiredNames : List String :=
  (all.filter required).map name

end Metadata

def isMetadata (name : String) : Bool :=
  (Metadata.of? name).isSome

def lifecycle : List String :=
  ["snapshot", "sanitycheck", "fetch", "unpack", "prepare", "build", "check", "package"]

end RecipeLint
