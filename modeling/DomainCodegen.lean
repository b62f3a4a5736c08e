import DomainCodegen.Json.Printer
import DomainCodegen.Main
import DomainCodegen.Request
import DomainCodegen.Proofs.Disk.Place
import DomainCodegen.Proofs.Disk.Growth
import DomainCodegen.Proofs.Disk.FreeName
import DomainCodegen.Proofs.Disk.Saving
import DomainCodegen.Proofs.Output.Settling
import DomainCodegen.Proofs.Layout
import DomainCodegen.Proofs.Output.Preservation
import DomainCodegen.Proofs.Disk.Lasting
import DomainCodegen.Proofs.Disk.Storing
import DomainCodegen.Proofs.Disk.Reach
import DomainCodegen.Proofs.Disk.Ready
import DomainCodegen.Proofs.Output.Containment
import DomainCodegen.Proofs.Output.Isolation
import DomainCodegen.Proofs.Output.Done
import DomainCodegen.Proofs.Output.Idempotence
import DomainCodegen.Proofs.Packages
import DomainCodegen.Proofs.Members
import DomainCodegen.Proofs.Lists
import DomainCodegen.Proofs.Text.Blank
import DomainCodegen.Proofs.Schema.Formed
import DomainCodegen.Proofs.Schema.SourcePath
import DomainCodegen.Proofs.Schema.Document
import DomainCodegen.Proofs.Schema.Usable
import DomainCodegen.Proofs.Schema.PreOrder
import DomainCodegen.Proofs.Schema.Blame
import DomainCodegen.Proofs.Schema.Likeness
import DomainCodegen.Proofs.Schema.Renaming
import DomainCodegen.Proofs.Schema.UnknownKeys
import DomainCodegen.Proofs.Artifact.Naming
import DomainCodegen.Proofs.Artifact.Places
import DomainCodegen.Proofs.Name
import DomainCodegen.Proofs.Artifact.Rendering
import DomainCodegen.Proofs.Artifact.References
import DomainCodegen.Proofs.Artifact.Flattening
import DomainCodegen.Proofs.Artifact.Locality
import DomainCodegen.Proofs.Java.Scanner
import DomainCodegen.Proofs.Java.Plain
import DomainCodegen.Proofs.Artifact.Contents
import DomainCodegen.Proofs.Artifact.FreeText
import DomainCodegen.Proofs.Java.Tokens
import DomainCodegen.Proofs.Java.Outline
import DomainCodegen.Proofs.Java.Readable
import DomainCodegen.Proofs.Java.ReadBack
import DomainCodegen.Proofs.Artifact.ReadBack
import DomainCodegen.Proofs.Artifact.MemberNames
import DomainCodegen.Proofs.Artifact.Imports
import DomainCodegen.Proofs.Generation.Order
import DomainCodegen.Proofs.Generation.Fresh
import DomainCodegen.Proofs.Generation.Frame
import DomainCodegen.Proofs.Generation.Sharing
import DomainCodegen.Proofs.PackageName
import DomainCodegen.Proofs.Disk.Atomic
import DomainCodegen.Proofs.Disk.Backup
import DomainCodegen.Proofs.Output.History
import DomainCodegen.Proofs.Output.Intact
import DomainCodegen.Proofs.Java.TypeNames
import DomainCodegen.Proofs.Artifact.TypeNames
import DomainCodegen.Proofs.Segments
import DomainCodegen.Proofs.Disk.Faults
import DomainCodegen.Proofs.Output.Answers
import DomainCodegen.Proofs.Java.UnicodeEscapes
import DomainCodegen.Proofs.Request
import DomainCodegen.Proofs.Generation.Texts
import DomainCodegen.Proofs.CaseConversion
import DomainCodegen.Proofs.Java.StringLiterals
import DomainCodegen.Proofs.Text.Wildcard
import DomainCodegen.Proofs.Disk.Listing
import DomainCodegen.Proofs.Output.Verification
