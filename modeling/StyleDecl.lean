import StyleDecl.Decl.Openings
import StyleDecl.Emit.Session
import StyleDecl.Formatter.External
import StyleDecl.Generate
import StyleDecl.Token.Lexer
import StyleDecl.Tree.Draft
import StyleDecl.Proofs.Grammar.RenderFile
import StyleDecl.Proofs.Literal
import StyleDecl.Proofs.Quotes
import StyleDecl.Proofs.Denoted
import StyleDecl.Proofs.Keys
import StyleDecl.Proofs.CommentText
import StyleDecl.Proofs.WellFormed
import StyleDecl.Proofs.Canonical
import StyleDecl.Proofs.RoundTrip
import StyleDecl.Proofs.Grammar.Words.Statements
import StyleDecl.Proofs.Worded
import StyleDecl.Proofs.Declared
import StyleDecl.Proofs.Generated.Files
import StyleDecl.Proofs.Timeline.Files
import StyleDecl.Proofs.Grammar.Moved
import StyleDecl.Proofs.Unseen.Files
import StyleDecl.Proofs.Reordered
import StyleDecl.Proofs.Seams
import StyleDecl.Proofs.Strict
import StyleDecl.Proofs.Handover
import StyleDecl.Proofs.Located
import StyleDecl.Proofs.Grammar.Outline
import StyleDecl.Proofs.Fragments
import StyleDecl.Proofs.Pasted.Declarations
import StyleDecl.Proofs.Redeclared
import StyleDecl.Proofs.Grammar.Neighbors
import StyleDecl.Proofs.LineEnds
import StyleDecl.Proofs.Lexical
import StyleDecl.Proofs.Cuts
import StyleDecl.Proofs.Commented
import StyleDecl.Proofs.Grammar.Determined
import StyleDecl.Proofs.Total
import StyleDecl.Proofs.Viable
import StyleDecl.Proofs.Grammar.Redrawn
import StyleDecl.Proofs.Stacked
import StyleDecl.Proofs.CarriageReturns.Format
import StyleDecl.Proofs.Tables
import StyleDecl.Proofs.Moves
import StyleDecl.Proofs.Reports
import StyleDecl.Proofs.Sessions
import StyleDecl.Proofs.Accounts
