import ZodRoutes.Main
import ZodRoutes.Proofs.Schema.Reading
import ZodRoutes.Proofs.Schema.Tree
import ZodRoutes.Proofs.Schema.Proper
import ZodRoutes.Proofs.Document.Expressible
import ZodRoutes.Proofs.Schema.Accepts
import ZodRoutes.Proofs.Schema.Faithful
import ZodRoutes.Proofs.Document.Override
import ZodRoutes.Proofs.Decimal.Nearest
import ZodRoutes.Proofs.Decimal.Shortest
import ZodRoutes.Proofs.Decimal.Numeral
import ZodRoutes.Proofs.Decimal.Layout
import ZodRoutes.Proofs.Json.Quoted
import ZodRoutes.Proofs.Zod.Term
import ZodRoutes.Proofs.Zod.Reading
import ZodRoutes.Proofs.Zod.Library
import ZodRoutes.Proofs.Zod.Meaning
import ZodRoutes.Proofs.Zod.Writing
import ZodRoutes.Proofs.Zod.Rendering
import ZodRoutes.Proofs.Schema.Relaxed
import ZodRoutes.Proofs.Zod.Model
import ZodRoutes.Proofs.Zod.Faithful
import ZodRoutes.Proofs.Zod.Acceptance
import ZodRoutes.Proofs.Json.Pointer
import ZodRoutes.Proofs.Schema.Place
import ZodRoutes.Proofs.Schema.Grammar
import ZodRoutes.Proofs.Schema.Accepted
import ZodRoutes.Proofs.Schema.Fault
import ZodRoutes.Proofs.Schema.Pointer
import ZodRoutes.Proofs.Document.RouteName
import ZodRoutes.Proofs.Script.Token
import ZodRoutes.Proofs.Script.Bracket
import ZodRoutes.Proofs.Script.Reading
import ZodRoutes.Proofs.Script.Expression
import ZodRoutes.Proofs.Emit.Module
import ZodRoutes.Proofs.Schema.Alike
import ZodRoutes.Proofs.Schema.Changed
import ZodRoutes.Proofs.Schema.Spelling
import ZodRoutes.Proofs.Schema.Keyword
import ZodRoutes.Proofs.Document.Routes
import ZodRoutes.Proofs.Schema.Reference
import ZodRoutes.Proofs.Document.Reference
import ZodRoutes.Proofs.Schema.Required
import ZodRoutes.Proofs.Cli.FileTree
import ZodRoutes.Proofs.Cli.Writing
import ZodRoutes.Proofs.Cli.Run
import ZodRoutes.Proofs.Cli.Agreement
import ZodRoutes.Proofs.Schema.Codec
import ZodRoutes.Proofs.Document.Codec
import ZodRoutes.Proofs.Zod.Malformed
import ZodRoutes.Proofs.Schema.Placeless
import ZodRoutes.Proofs.Request.SingleBranch
import ZodRoutes.Proofs.Schema.Typed
import ZodRoutes.Proofs.Schema.Built
import ZodRoutes.Proofs.Zod.LastCall
import ZodRoutes.Proofs.Request.Coercion
import ZodRoutes.Proofs.Schema.ObjectForm
import ZodRoutes.Proofs.Schema.Canonical
import ZodRoutes.Proofs.Document.Body
import ZodRoutes.Proofs.Zod.OneLine
import ZodRoutes.Proofs.Emit.Lines
import ZodRoutes.Proofs.Zod.Building
import ZodRoutes.Proofs.Document.NameSpelling
import ZodRoutes.Proofs.Schema.PrintedPlace
