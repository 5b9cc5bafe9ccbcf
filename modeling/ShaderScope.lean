import ShaderScope.Vocabulary.Kind
import ShaderScope.Vocabulary.Precision
import ShaderScope.Vocabulary.Storage
import ShaderScope.Vocabulary.Layout
import ShaderScope.Vocabulary.Saved
import ShaderScope.Name.Ident
import ShaderScope.Name.Shard
import ShaderScope.Name.Pool
import ShaderScope.Name.Call
import ShaderScope.Ty.Basic
import ShaderScope.Ty.Mangling
import ShaderScope.Ty.Size
import ShaderScope.Ty.Contents
import ShaderScope.Ty.Equality
import ShaderScope.Ty.Wording
import ShaderScope.Ty.Specifier
import ShaderScope.Ty.Renaming
import ShaderScope.Symbol.Constant
import ShaderScope.Symbol.Declaration
import ShaderScope.Symbol.Basic
import ShaderScope.Symbol.Renaming
import ShaderScope.Table.Rejection
import ShaderScope.Table.Scope
import ShaderScope.Table.Dialect
import ShaderScope.Table.Levels
import ShaderScope.Table.Defaults
import ShaderScope.Table.Basic
import ShaderScope.Table.Action
import ShaderScope.Table.Conversation
import ShaderScope.Table.TextTable
import ShaderScope.Memo.Store
import ShaderScope.Memo.Contents
import ShaderScope.Memo.Equality
import ShaderScope.Memo.Meaning
import ShaderScope.Memo.Session
import ShaderScope.Proofs.Issued
import ShaderScope.Proofs.Interning
import ShaderScope.Proofs.WellFormed
import ShaderScope.Proofs.Decoding
import ShaderScope.Proofs.Signatures
import ShaderScope.Proofs.EmptyDefinitions
import ShaderScope.Proofs.NumberedNames
import ShaderScope.Proofs.Effects
import ShaderScope.Proofs.Ledger
import ShaderScope.Proofs.Keys
import ShaderScope.Proofs.Overloads
import ShaderScope.Proofs.Scoping
import ShaderScope.Proofs.SameAnswers
import ShaderScope.Proofs.Rejections
import ShaderScope.Proofs.ClosedScopes
import ShaderScope.Proofs.Reading
import ShaderScope.Proofs.Replies
import ShaderScope.Proofs.ConversationRuns
import ShaderScope.Proofs.Conversations
import ShaderScope.Proofs.Redeclarations
import ShaderScope.Proofs.BuiltinView
import ShaderScope.Proofs.HiddenTiers
import ShaderScope.Proofs.Identities
import ShaderScope.Proofs.RecordedNames
import ShaderScope.Proofs.FunctionNames
import ShaderScope.Proofs.DefaultPrecisions
import ShaderScope.Proofs.EqualTypes
import ShaderScope.Proofs.ExactSizes
import ShaderScope.Proofs.StoredTypes
import ShaderScope.Proofs.Containment
import ShaderScope.Proofs.StoredAnswers
import ShaderScope.Proofs.Sessions
import ShaderScope.Proofs.RememberedAnswers
import ShaderScope.Proofs.NestingDepth
import ShaderScope.Proofs.Rebinding
import ShaderScope.Proofs.LevelWalk
