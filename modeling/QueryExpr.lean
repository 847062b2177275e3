import QueryExpr.Text.Span
import QueryExpr.Text.Segments
import QueryExpr.Text.Quoted
import QueryExpr.Number.Decimal.Reader
import QueryExpr.Number.Floating.Reader
import QueryExpr.Number.Floating.Shortest
import QueryExpr.Bytes.Base64
import QueryExpr.Bytes.Guid
import QueryExpr.Temporal.Moment.Reader
import QueryExpr.Temporal.Duration
import QueryExpr.Literal.Raw
import QueryExpr.Token
import QueryExpr.Token.Lexer
import QueryExpr.Expr.Text
import QueryExpr.Expr.Walk
import QueryExpr.Expr.Document
import QueryExpr.Resolve.Member
import QueryExpr.Resolve.Registry
import QueryExpr.Parser
import QueryExpr.Proofs.Requests
import QueryExpr.Proofs.Refusal
import QueryExpr.Proofs.Precedence
import QueryExpr.Proofs.Rendering
import QueryExpr.Proofs.Spans
import QueryExpr.Proofs.Whitelist
import QueryExpr.Proofs.Spacing
import QueryExpr.Proofs.Blame
import QueryExpr.Proofs.Phases
import QueryExpr.Proofs.Shapes
import QueryExpr.Proofs.Composition
import QueryExpr.Proofs.Concatenation
import QueryExpr.Proofs.Budgets
import QueryExpr.Proofs.Lexical
import QueryExpr.Proofs.Operands
import QueryExpr.Proofs.Nesting
import QueryExpr.Proofs.Floats
import QueryExpr.Proofs.Legibility
import QueryExpr.Proofs.Fitting
import QueryExpr.Proofs.Rereading
import QueryExpr.Proofs.Registration
import QueryExpr.Proofs.Shortening
import QueryExpr.Proofs.Positions
import QueryExpr.Proofs.Shown
import QueryExpr.Proofs.Signs
import QueryExpr.Proofs.Integers
import QueryExpr.Proofs.Enclosed
import QueryExpr.Proofs.Lookup
import QueryExpr.Proofs.Flat
import QueryExpr.Proofs.Bodies
import QueryExpr.Proofs.Accepted
import QueryExpr.Proofs.Matching
import QueryExpr.Proofs.Bracketing
import QueryExpr.Proofs.Folding
import QueryExpr.Proofs.Minimality
import QueryExpr.Proofs.Idempotence
import QueryExpr.Proofs.Members
import QueryExpr.Proofs.Lossless
import QueryExpr.Proofs.Cursors
