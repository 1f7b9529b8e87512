import LazyLisp.CommandLine.Run
import LazyLisp.Editor
import LazyLisp.Expr.Host
import LazyLisp.Main
import LazyLisp.Proofs.CommandLine
import LazyLisp.Proofs.Concatenation
import LazyLisp.Proofs.Editor
import LazyLisp.Proofs.Editor.Runs
import LazyLisp.Proofs.Editor.Words
import LazyLisp.Proofs.Evaluation.ByName
import LazyLisp.Proofs.Evaluation.Comparison
import LazyLisp.Proofs.Evaluation.Conditionals
import LazyLisp.Proofs.Evaluation.Equality
import LazyLisp.Proofs.Evaluation.Junctions
import LazyLisp.Proofs.Evaluation.Laziness
import LazyLisp.Proofs.Evaluation.Scopes
import LazyLisp.Proofs.Evaluation.Sharing
import LazyLisp.Proofs.Evaluation.Simulation
import LazyLisp.Proofs.Evaluation.Unforced
import LazyLisp.Proofs.Evaluation.Values
import LazyLisp.Proofs.Expr.Host
import LazyLisp.Proofs.Layout.Colors
import LazyLisp.Proofs.Layout.Room
import LazyLisp.Proofs.Layout.Width
import LazyLisp.Proofs.Number.Reread
import LazyLisp.Proofs.Outline
import LazyLisp.Proofs.Outline.Places
import LazyLisp.Proofs.Reader.Atom
import LazyLisp.Proofs.Reader.Delimiting
import LazyLisp.Proofs.Reader.OpenDepth
import LazyLisp.Proofs.Reader.RoundTrip
import LazyLisp.Proofs.Reader.ViablePrefix
import LazyLisp.Proofs.Reading
import LazyLisp.Proofs.Session
import LazyLisp.Proofs.Session.ClosedValues
import LazyLisp.Proofs.Session.Counting
import LazyLisp.Proofs.Session.Drivers
import LazyLisp.Proofs.Session.Nested
import LazyLisp.Proofs.Session.OperatorNames
import LazyLisp.Proofs.Session.Prelude
import LazyLisp.Proofs.Session.Strictness
import LazyLisp.Proofs.Shell.Pending
