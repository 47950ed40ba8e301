import Codebase.Documents
import Codebase.Host
import Codebase.Resolution
import Codebase.Settings
/-!
# What a build may consult

A build reads the host, the tracked documents and the settings, and changes none of them.  A
tracked document lies over the file of its path, so a file that only an editor has still exists.
-/

namespace Codebase

structure Context where
  host : Host
  documents : Documents
  settings : Settings

namespace Context

def hasFile (ctx : Context) (path : Path) : Bool :=
  ctx.documents.contains path || ctx.host.hasFile path

def read (ctx : Context) (path : Path) : Option String :=
  match ctx.documents.text? path with
  | some text => some text
  | none => (ctx.host.read path).toOption

def view (ctx : Context) : View := ⟨ctx.hasFile, ctx.read⟩

def resolver (ctx : Context) : Resolver := ⟨ctx.view, ctx.settings.resolution.extensions⟩

end Context

end Codebase
