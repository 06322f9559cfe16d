import Monomorph.Text.Numeral
import Monomorph.Text.Identifier
import Monomorph.Text.Quotation
import Monomorph.Signature.Basic
import Monomorph.Error
import Monomorph.Signature.Substitution
import Monomorph.Signature.Render
import Monomorph.Metadata.Flags
import Monomorph.Key
import Monomorph.Metadata.Basic
import Monomorph.Metadata.Definitions
import Monomorph.Registry
import Monomorph.Instance.Type
import Monomorph.Instance.Method
import Monomorph.Instance.Field
import Monomorph.Catalog
import Monomorph.Json.Number
import Monomorph.Json.Scan
import Monomorph.Json.Ignored
import Monomorph.Json.Reader
import Monomorph.Json.Document
import Monomorph.Snapshot.Basic
import Monomorph.Snapshot.Reader
import Monomorph.Snapshot.Build
import Monomorph.Report
import Monomorph.CommandLine
import Monomorph.Main
import Monomorph.Proofs.Text.Identifier
import Monomorph.Proofs.Signature.Shown
import Monomorph.Proofs.Signature.Parts
import Monomorph.Proofs.Signature.Reading
import Monomorph.Proofs.Signature.Leaves
import Monomorph.Proofs.Registry
import Monomorph.Proofs.Metadata.Growth
import Monomorph.Proofs.Metadata.Lookup
import Monomorph.Proofs.Metadata.InPlace
import Monomorph.Proofs.Catalog.Requests
import Monomorph.Proofs.Key
import Monomorph.Proofs.Signature.Printed
import Monomorph.Proofs.Session.Basic
import Monomorph.Proofs.Session.Coherence
import Monomorph.Proofs.Session.Identity
import Monomorph.Proofs.Session.Overloads
import Monomorph.Proofs.Session.Scope
import Monomorph.Proofs.Session.Marks
import Monomorph.Proofs.Catalog.InPlace
import Monomorph.Proofs.Session.Publication
import Monomorph.Proofs.Session.Arguments
import Monomorph.Proofs.Signature.Rendering
import Monomorph.Proofs.Signature.Congruence
import Monomorph.Proofs.Signature.Composition
import Monomorph.Proofs.Signature.Meaning
import Monomorph.Proofs.Signature.Guard
import Monomorph.Proofs.Signature.Outline
import Monomorph.Proofs.Signature.Concreteness
import Monomorph.Proofs.Catalog.Rejection
import Monomorph.Proofs.Report
import Monomorph.Proofs.Session.Loading
import Monomorph.Proofs.CommandLine
import Monomorph.Proofs.Instance.Key
import Monomorph.Proofs.Instance.Records
import Monomorph.Proofs.Snapshot.Meaning
import Monomorph.Proofs.Snapshot.Build
import Monomorph.Proofs.Snapshot.Acceptance
import Monomorph.Proofs.Json.Syntax
import Monomorph.Proofs.Json.Scan
import Monomorph.Proofs.Json.Layout
import Monomorph.Proofs.Json.Ignored
import Monomorph.Proofs.Json.Spelling
import Monomorph.Proofs.Json.Reading
import Monomorph.Proofs.Json.Record
import Monomorph.Proofs.Snapshot.Spelling
import Monomorph.Proofs.Instance.Failures
import Monomorph.Proofs.Instance.InPlace
import Monomorph.Proofs.Instance.LifeCycle
import Monomorph.Proofs.Instance.Receiver
import Monomorph.Proofs.Instance.Owner
import Monomorph.Proofs.Snapshot.Consistency
import Monomorph.Proofs.Snapshot.Summary
import Monomorph.Proofs.Snapshot.Reporting
