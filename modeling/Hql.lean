import Hql.Session
import Hql.Proofs.Schema.Lexeme
import Hql.Proofs.Schema.SignedNumber
import Hql.Proofs.Schema.State
import Hql.Proofs.Schema.Seam
import Hql.Proofs.Schema.Spelling
import Hql.Proofs.Schema.Declaration
import Hql.Proofs.Schema.Reading
import Hql.Proofs.Schema.Default
import Hql.Proofs.Schema.Field
import Hql.Proofs.Schema.Block
import Hql.Proofs.Schema.RoundTrip
import Hql.Proofs.Schema.Shape
import Hql.Proofs.Schema.Inversion
import Hql.Proofs.Schema.Line
import Hql.Proofs.Schema.Misread
import Hql.Proofs.Schema.Exactness
import Hql.Proofs.Schema.Reimport
import Hql.Proofs.Schema.Guard
import Hql.Proofs.Library.Core
import Hql.Proofs.Library.Sections
import Hql.Proofs.Library.Flags
import Hql.Proofs.Validation.Due
import Hql.Proofs.Schema.Reload
import Hql.Proofs.Layout.Block
import Hql.Proofs.Layout.Document
import Hql.Proofs.Layout.Phrase
import Hql.Proofs.Library.Names
import Hql.Proofs.Library.Relayout
import Hql.Proofs.Library.Scope
import Hql.Proofs.Library.References
import Hql.Proofs.Library.Titles
import Hql.Proofs.Schema.Formatting
import Hql.Proofs.Schema.Gap
import Hql.Proofs.Schema.Leading
import Hql.Proofs.Schema.Offset
import Hql.Proofs.Schema.Outcome
import Hql.Proofs.Schema.Insertion
import Hql.Proofs.Schema.Sequence
import Hql.Proofs.Schema.FirstFault
import Hql.Proofs.Query.Lines
import Hql.Proofs.Library.OneLine
import Hql.Proofs.Library.Chunks
import Hql.Proofs.Library.Locality
import Hql.Proofs.Library.Clashes
import Hql.Proofs.Library.Identifiers
import Hql.Proofs.Validation.Fixes
import Hql.Proofs.Layout.Segmentation
import Hql.Proofs.Layout.Lossless
import Hql.Proofs.Query.Nesting
import Hql.Proofs.Query.Indentation
import Hql.Proofs.Validation.Addition
import Hql.Proofs.Schema.FieldOrigin
import Hql.Proofs.Schema.Import
import Hql.Proofs.Model.Storage
import Hql.Proofs.Layout.BlankLines
import Hql.Proofs.Layout.Division
import Hql.Proofs.Layout.Retidied
import Hql.Proofs.Layout.Pairs
import Hql.Proofs.Text.PascalCase
