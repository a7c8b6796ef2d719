import SqlScript.Main
import SqlScript.Tree.Dump
import SqlScript.Tree.Equality
import SqlScript.Tree.Outline
import SqlScript.Proofs.Expression.Arrangement
import SqlScript.Proofs.Expression.Yard
import SqlScript.Proofs.Grammar.Laws
import SqlScript.Proofs.Grammar.Need
import SqlScript.Proofs.Grammar.Expression
import SqlScript.Proofs.Grammar.Clauses
import SqlScript.Proofs.Grammar.Statement
import SqlScript.Proofs.Grammar.Marks
import SqlScript.Proofs.Grammar.Exact
import SqlScript.Proofs.Expression.Order
import SqlScript.Proofs.Scan.Lexical
import SqlScript.Proofs.Scan.Pieces
import SqlScript.Proofs.Scan.Split
import SqlScript.Proofs.Grammar.Vocabulary
import SqlScript.Proofs.Grammar.Semicolon
import SqlScript.Proofs.Scan.Seam
import SqlScript.Proofs.Script.Compose
import SqlScript.Proofs.Grammar.Numbered
import SqlScript.Proofs.Grammar.SelfEqual
import SqlScript.Proofs.Scan.Respelled
import SqlScript.Proofs.Tree.Unmarked
import SqlScript.Proofs.Script.Layout
import SqlScript.Proofs.Grammar.Longest
import SqlScript.Proofs.Grammar.Limits
import SqlScript.Proofs.Grammar.Tries
import SqlScript.Proofs.Grammar.Exceeds
import SqlScript.Proofs.Script.Depth
import SqlScript.Proofs.Grammar.Nodes
import SqlScript.Proofs.Tree.Outline
import SqlScript.Proofs.Script.Spans
import SqlScript.Proofs.Grammar.Orders
import SqlScript.Proofs.Script.Warnings
import SqlScript.Proofs.Binary64.Exact
import SqlScript.Proofs.Scan.Written
import SqlScript.Proofs.Grammar.Proper
import SqlScript.Proofs.Script.Image
import SqlScript.Proofs.Binary64.Digits
import SqlScript.Proofs.Binary64.Shortest
import SqlScript.Proofs.Binary64.Numeral
import SqlScript.Proofs.Json.Decodable
import SqlScript.Proofs.Tree.Dumped
import SqlScript.Proofs.Tree.Encoded
import SqlScript.Proofs.Script.Faithful
import SqlScript.Proofs.Script.Blame
import SqlScript.Proofs.Script.Literals
import SqlScript.Proofs.Text.Place
import SqlScript.Proofs.Script.Caret
import SqlScript.Proofs.Command.Files
import SqlScript.Proofs.Command.Run
import SqlScript.Proofs.Scan.Displayed
import SqlScript.Proofs.Tree.Postfix
import SqlScript.Proofs.Script.Postfix
import SqlScript.Proofs.Grammar.Counting
import SqlScript.Proofs.Script.Reuse
import SqlScript.Proofs.Script.Relabelled
import SqlScript.Proofs.Scan.Local
import SqlScript.Proofs.Text.Bytes
import SqlScript.Proofs.Scan.Cursor
import SqlScript.Proofs.Scan.Recognizers
import SqlScript.Proofs.Scan.Faultless
import SqlScript.Proofs.Scan.Repeated
import SqlScript.Proofs.Command.Arguments
import SqlScript.Proofs.Expression.Loop
import SqlScript.Proofs.Script.Progress
