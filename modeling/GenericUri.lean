import GenericUri.Authority
import GenericUri.Builder
import GenericUri.CharSet
import GenericUri.Component
import GenericUri.DotSegments
import GenericUri.Encoding
import GenericUri.Error
import GenericUri.Hexadectet
import GenericUri.HierPart
import GenericUri.Host
import GenericUri.IpAddress
import GenericUri.Normalised
import GenericUri.Numeral
import GenericUri.Octet
import GenericUri.Parts
import GenericUri.Path
import GenericUri.Percent
import GenericUri.Port
import GenericUri.Proofs.AbsolutePath
import GenericUri.Proofs.Acceptance
import GenericUri.Proofs.AddressGrammar
import GenericUri.Proofs.AddressMeaning
import GenericUri.Proofs.AddressSpelling
import GenericUri.Proofs.AddressText
import GenericUri.Proofs.Authority
import GenericUri.Proofs.BuilderRun
import GenericUri.Proofs.Canonical
import GenericUri.Proofs.CaseFolding
import GenericUri.Proofs.Components
import GenericUri.Proofs.Decoding
import GenericUri.Proofs.DefaultPort
import GenericUri.Proofs.Dispatch
import GenericUri.Proofs.DotSegments
import GenericUri.Proofs.DottedName
import GenericUri.Proofs.Elision
import GenericUri.Proofs.Encoding
import GenericUri.Proofs.Escaping
import GenericUri.Proofs.FirstFault
import GenericUri.Proofs.Grammar
import GenericUri.Proofs.IpAddress
import GenericUri.Proofs.LetterCase
import GenericUri.Proofs.Lowercase
import GenericUri.Proofs.Mark
import GenericUri.Proofs.NormalForm
import GenericUri.Proofs.Numeral
import GenericUri.Proofs.Order
import GenericUri.Proofs.Path
import GenericUri.Proofs.PathGrammar
import GenericUri.Proofs.Percent
import GenericUri.Proofs.PortNumber
import GenericUri.Proofs.Reachable
import GenericUri.Proofs.ReadsBack
import GenericUri.Proofs.Reference
import GenericUri.Proofs.Resolution
import GenericUri.Proofs.Respelling
import GenericUri.Proofs.RootlessBase
import GenericUri.Proofs.Runs
import GenericUri.Proofs.SegmentText
import GenericUri.Proofs.SetExpr
import GenericUri.Proofs.StoredText
import GenericUri.Proofs.Structure
import GenericUri.Proofs.Symbols
import GenericUri.Proofs.Transform
import GenericUri.Proofs.TypedSegment
import GenericUri.Proofs.TypedTail
import GenericUri.Reference
import GenericUri.RelativeRef
import GenericUri.Scheme
import GenericUri.Segment
import GenericUri.Tail
import GenericUri.Text
import GenericUri.Unicode.CaseMapping
import GenericUri.Unicode.CaseProperties
import GenericUri.Unicode.Lowercase
import GenericUri.Uri
import GenericUri.UserInfo
import GenericUri.Utf8
