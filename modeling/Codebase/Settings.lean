import Codebase.Command
import Codebase.Wire
/-!
# Settings

The settings of the service.  Every field has a default, so an empty object is a whole
configuration.
-/

namespace Codebase

/-- Which declaration packages are acquired without being referenced. -/
structure TypeAcquisition where
  enabled : Bool
  /-- Packages to acquire even when no directory lists them. -/
  extra : List String
  exclude : List String
  deriving DecidableEq, Repr

def TypeAcquisition.allows (policy : TypeAcquisition) (package : String) : Bool :=
  policy.enabled && package ∉ policy.exclude

/-- How references are followed. -/
structure ResolutionSettings where
  /-- The extensions to try, without a dot, in order. -/
  extensions : List String
  /-- The number of references that are followed from a seed; unbounded without it. -/
  maxDepth : Option Nat
  deriving DecidableEq, Repr

structure Settings where
  /-- No project serves more than syntax, and manifests are not consulted. -/
  syntaxOnly : Bool
  /-- All open files without a manifest share one inferred project. -/
  useSingleInferredProject : Bool
  manifestFileNames : List String
  /-- The declaration file that every full build ends with. -/
  defaultLibrary : Option Path
  typeAcquisition : TypeAcquisition
  resolution : ResolutionSettings
  deriving DecidableEq, Repr

namespace Settings

def defaultExtensions : List String := ["ts", "tsx", "d.ts", "mts", "cts", "d.mts", "d.cts"]

def defaultManifestNames : List String := ["tsconfig.json"]

def default : Settings where
  syntaxOnly := false
  useSingleInferredProject := false
  manifestFileNames := defaultManifestNames
  defaultLibrary := none
  typeAcquisition := ⟨true, [], []⟩
  resolution := ⟨defaultExtensions, none⟩

/-- What a new project serves. -/
def capability (settings : Settings) : Capability :=
  if settings.syntaxOnly then .syntacticOnly else .fullSemantic

end Settings

open Json Decoder

namespace Settings

def acquisitionDecoder : Decoder TypeAcquisition :=
  record [
    field "enabled" .defaulted bool fun enabled d => { d with enabled },
    field "include" .defaulted (list text) fun extra d => { d with extra },
    field "exclude" .defaulted (list text) fun exclude d => { d with exclude }]
    default.typeAcquisition

def resolutionDecoder : Decoder ResolutionSettings :=
  record [
    field "extensions" .defaulted (list text) fun extensions d => { d with extensions },
    field "maxDepth" .defaulted (optional nat64) fun maxDepth d => { d with maxDepth }]
    default.resolution

def decoder : Decoder Settings :=
  record [
    field "syntaxOnly" .defaulted bool fun syntaxOnly d => { d with syntaxOnly },
    field "useSingleInferredProject" .defaulted bool fun useSingleInferredProject d =>
      { d with useSingleInferredProject },
    field "manifestFileNames" .defaulted (list text) fun manifestFileNames d =>
      { d with manifestFileNames },
    field "defaultLibrary" .defaulted (optional Path.decoder) fun defaultLibrary d =>
      { d with defaultLibrary },
    field "typeAcquisition" .defaulted acquisitionDecoder fun typeAcquisition d =>
      { d with typeAcquisition },
    field "resolution" .defaulted resolutionDecoder fun resolution d => { d with resolution }]
    default

end Settings

end Codebase
