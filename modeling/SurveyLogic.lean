import SurveyLogic.Main
import SurveyLogic.Proofs.Assignments
import SurveyLogic.Proofs.Cache
import SurveyLogic.Proofs.Errors.Marked
import SurveyLogic.Proofs.Grammar.Limit
import SurveyLogic.Proofs.Grammar.Longest
import SurveyLogic.Proofs.Layout
import SurveyLogic.Proofs.Logic
import SurveyLogic.Proofs.MoreAnswers
import SurveyLogic.Proofs.Printing.Accepted
import SurveyLogic.Proofs.Printing.RoundTrip
import SurveyLogic.Proofs.Structure
import SurveyLogic.Proofs.Survey.Answers
import SurveyLogic.Proofs.Survey.AnyOrder
import SurveyLogic.Proofs.Survey.Changes
import SurveyLogic.Proofs.Survey.Definitions
import SurveyLogic.Proofs.Survey.Independence
import SurveyLogic.Proofs.Survey.Listeners
import SurveyLogic.Proofs.Survey.Loading
import SurveyLogic.Proofs.Survey.Readers
import SurveyLogic.Proofs.Survey.Repeated
import SurveyLogic.Proofs.Title.Paths
import SurveyLogic.Proofs.Title.Substitution
import SurveyLogic.Proofs.Title.Words
import SurveyLogic.Proofs.Value.Equality
import SurveyLogic.Proofs.Value.Order
