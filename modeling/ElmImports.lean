import ElmImports.Main
import ElmImports.Proofs.Config.Resolved
import ElmImports.Proofs.Module.Grammar
import ElmImports.Proofs.Module.Kind
import ElmImports.Proofs.Walk.Placed
import ElmImports.Proofs.Walk.Places
import ElmImports.Proofs.Walk.Traversal
import ElmImports.Proofs.ImportBlock.Comments
import ElmImports.Proofs.Text.Ascii
import ElmImports.Proofs.Text.Returns
import ElmImports.Proofs.Json.Returns
import ElmImports.Proofs.Lines.Returns
import ElmImports.Proofs.Walk.Alike
import ElmImports.Proofs.Walk.Returns
import ElmImports.Proofs.Walk.Afresh
import ElmImports.Proofs.Walk.Asked
import ElmImports.Proofs.Disk.Tree
import ElmImports.Proofs.Disk.Change
import ElmImports.Proofs.Disk.Lookup
import ElmImports.Proofs.SourceRoots.Nearest
import ElmImports.Proofs.Graph.Naming
import ElmImports.Proofs.Path.Unique
import ElmImports.Proofs.Walk.Unreadable
import ElmImports.Proofs.Lines.Ahead
import ElmImports.Proofs.ImportBlock.EarlyStop
import ElmImports.Proofs.Module.Unique
import ElmImports.Proofs.Lines.Decoded
import ElmImports.Proofs.ImportBlock.Parsed
import ElmImports.Proofs.Graph.Dot
import ElmImports.Proofs.Graph.Imports
import ElmImports.Proofs.Walk.History
